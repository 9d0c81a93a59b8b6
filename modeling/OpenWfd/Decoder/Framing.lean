import OpenWfd.Decoder.Storage
import OpenWfd.Decoder.Sanitize

/-!
# Decoder — Framing

Messages written one after the other come out one after the other (`feed_stream`), in any mix of the
line breaks LF, CRLF and CR, with lines folded anywhere at a space, bodies of any bytes and
white-space between the messages.

The encoding is a relation between messages and byte strings, built from the back: whether a CR
stands for a line break depends on what follows it.  The proof runs the parser along the derivation.
Between messages the parser is `Idle`; at a line break (`AtBreak`) the line before it is still
pending, because the next byte may continue it.
-/

namespace OpenWfd.Rtsp

/-! ### Messages and their encodings -/

/-- The line announces the length of the body: it starts with `content-length:` in any letter
case. -/
abbrev IsLength (text : List UInt8) : Prop := strncasecmp text (str "content-length:") 15 = 0

/-- The text is the number `n` in decimal, after an optional space. -/
def Announces (t : List UInt8) (n : Nat) : Prop :=
  ∃ ds, (t = ds ∨ t = SP :: ds) ∧ ds ≠ [] ∧ (∀ d ∈ ds, isDigit d) ∧ decimalValue ds = n

/-- A header line. -/
structure Line where
  text : List UInt8
  nonempty : text ≠ []
  plain : ∀ c ∈ text, Plain c
  single : ¬ [SP, SP] <:+: text
  head : text.head? ≠ some SP
  last : text.getLast? ≠ some SP

theorem plain_of_all {text : List UInt8} (h : text.all (fun c => Plain c) = true) :
    ∀ c ∈ text, Plain c := by
  simpa using h

/-- A message.  Several lines may announce the length, if they agree. -/
structure Message where
  lines : List Line
  body : List UInt8
  nonempty : lines ≠ []
  announced : body ≠ [] → ∃ l ∈ lines, IsLength l.text
  length : ∀ l ∈ lines, IsLength l.text → Announces (l.text.drop 15) body.length

/-- `br` is a line break before `rest`. -/
structure Break (br rest : List UInt8) : Prop where
  isBreak : IsBreak br
  cr : br = [CR] → rest.head? ≠ some LF

/-- `Lines ls rest s`: `s` is the lines, each folded and ended by a line break, and then `rest`. -/
inductive Lines : List Line → List UInt8 → List UInt8 → Prop where
  | nil (rest : List UInt8) : Lines [] rest rest
  | cons {l : Line} {ls : List Line} {raw br mid rest : List UInt8}
      (hf : Folded l.text raw) (hb : Break br mid) (h : Lines ls rest mid) :
      Lines (l :: ls) rest (raw ++ (br ++ mid))

/-- `Encodes m rest s`: `s` is the message and then `rest`. -/
inductive Encodes (m : Message) (rest : List UInt8) : List UInt8 → Prop where
  | intro {br s : List UInt8} (hb : Break br (m.body ++ rest))
      (hl : Lines m.lines (br ++ (m.body ++ rest)) s) : Encodes m rest s

/-- The messages one after the other, with white-space before each of them. -/
inductive Stream : List Message → List UInt8 → Prop where
  | nil : Stream [] []
  | cons {m : Message} {ms : List Message} {ws s rest : List UInt8}
      (hw : ∀ c ∈ ws, White c) (he : Encodes m rest s) (h : Stream ms rest) :
      Stream (m :: ms) (ws ++ s)

/-! ### What the callback is to see -/

/-- The string an entry of `msg.header` points to. -/
def HeaderPtr.text : HeaderPtr → Option (List UInt8)
  | .line block => some (cstr block)
  | _           => none

/-- The header lines as strings with their lengths. -/
def texts (lines : List (HeaderPtr × Option Nat)) : List (Option (List UInt8) × Option Nat) :=
  lines.map fun x => (x.1.text, x.2)

def Line.view (l : Line) : Option (List UInt8) × Option Nat := (some l.text, some l.text.length)

/-- The header lines as strings, the body and its length. -/
def Seen.view (s : Seen) :
    List (Option (List UInt8) × Option Nat) × Option (List UInt8) × Nat :=
  (texts s.lines, s.body, s.bodyLen)

/-- The block `shl_ring_copy` returns for a body; without a body there is none. -/
def bodyBlock (body : List UInt8) : Option (List UInt8) :=
  if body = [] then none else some (body ++ [NUL])

def Message.view (m : Message) :
    List (Option (List UInt8) × Option Nat) × Option (List UInt8) × Nat :=
  (m.lines.map Line.view, bodyBlock m.body, m.body.length)

/-! ### Bytes that stay pending -/

/-- The byte is no part of a line break. -/
def Inner (c : UInt8) : Prop := c ≠ CR ∧ c ≠ LF

theorem Blank.inner {c : UInt8} (h : Blank c) : Inner c := by
  rcases h with rfl | rfl <;> exact ⟨by decide, by decide⟩

namespace Parser

/-- The parser once `w` is pending too. -/
def read (p : Parser) (w : List UInt8) : Parser :=
  { p with pending := p.pending ++ w, lastChr := w.getLastD p.lastChr }

@[simp] theorem read_nil (p : Parser) : p.read [] = p := by simp [read]

theorem read_append (p : Parser) (w w' : List UInt8) : (p.read w).read w' = p.read (w ++ w') := by
  rcases List.eq_nil_or_concat w' with rfl | ⟨w', c, rfl⟩
  · simp
  · simp [read, List.getLastD_eq_getLast?]

theorem run_cons {p q : Parser} {c : UInt8} (h : p.step c = (.ok (), q)) (bs : List UInt8) :
    p.run (c :: bs) = run { q with lastChr := c } bs := by
  have hr : reader.step p c = (.ok (), { q with lastChr := c }) := by
    simp only [reader, h, remember]
  exact Reader.run_cons_ok hr bs

/-- After `l`, the byte `c` does not end the header line. -/
def Stays (l c : UInt8) : Prop := c ≠ DQ ∧ (Blank c ∨ (c = LF ∧ l ≠ LF) ∨ (l ≠ CR ∧ l ≠ LF))

theorem run_stays {p : Parser} (hs : p.state = .header) {c : UInt8} (h : Stays p.lastChr c)
    (bs : List UInt8) : p.run (c :: bs) = (p.read [c]).run bs := by
  refine run_cons (q := { p with pending := p.pending ++ [c] }) ?_ bs
  obtain ⟨hq, h⟩ := h
  simp only [step, hs, stepHeader, hq, if_false]
  split_ifs with h₁ h₂ h₃ h₄ h₅ h₆
  · subst h₁
    rcases h with h | ⟨h, -⟩ | h
    · rcases h with h | h <;> cases h
    · cases h
    · rcases h₂ with h₂ | h₂ <;> simp [h₂] at h
  · rfl
  · subst h₃
    rcases h with h | ⟨-, h⟩ | h
    · rcases h with h | h <;> cases h
    · exact (h h₄).elim
    · exact (h.2 h₄).elim
  · rfl
  · rfl
  · rcases h with h | ⟨h, -⟩ | h
    · exact (h₅ (h.elim Or.inr Or.inl)).elim
    · exact (h₃ h).elim
    · rcases h₆ with h₆ | h₆ <;> simp [h₆] at h
  · rfl

theorem run_break {p : Parser} (hs : p.state = .header) (hl : Inner p.lastChr) {br : List UInt8}
    (hb : IsBreak br) (bs : List UInt8) : p.run (br ++ bs) = (p.read br).run bs := by
  cases hb with
  | lf => exact run_stays hs ⟨by decide, Or.inr (Or.inr hl)⟩ bs
  | cr => exact run_stays hs ⟨by decide, Or.inr (Or.inr hl)⟩ bs
  | crlf =>
      have hcr : (p.read [CR]).lastChr ≠ LF := show CR ≠ LF by decide
      rw [List.cons_append, run_stays hs ⟨by decide, Or.inr (Or.inr hl)⟩, List.cons_append,
        run_stays (p := p.read [CR]) hs ⟨by decide, Or.inr (Or.inl ⟨rfl, hcr⟩)⟩,
        read_append]
      rfl

theorem run_gap {g : List UInt8} (hg : Gap g) {p : Parser} (hs : p.state = .header)
    (hl : Inner p.lastChr) (bs : List UInt8) :
    p.run (g ++ bs) = (p.read g).run bs ∧ Inner (p.read g).lastChr := by
  induction hg generalizing p bs with
  | @blank b hb =>
      exact ⟨run_stays hs ⟨by rcases hb with rfl | rfl <;> decide, Or.inl hb⟩ bs, hb.inner⟩
  | @folded br b hbr hb =>
      rw [List.append_assoc, run_break hs hl hbr, List.singleton_append,
        run_stays (p := p.read br) hs ⟨by rcases hb with rfl | rfl <;> decide, Or.inl hb⟩,
        read_append]
      exact ⟨rfl, by simpa [read] using hb.inner⟩
  | @append g g' _ _ ih ih' =>
      obtain ⟨h₁, hl₁⟩ := ih hs hl (g' ++ bs)
      obtain ⟨h₂, hl₂⟩ := ih' (p := p.read g) hs hl₁ bs
      rw [List.append_assoc, h₁, h₂, read_append]
      exact ⟨rfl, by rwa [read_append] at hl₂⟩

theorem run_folded {text raw : List UInt8} (h : Folded text raw) (hp : ∀ c ∈ text, Plain c)
    {p : Parser} (hs : p.state = .header) (hl : Inner p.lastChr) (bs : List UInt8) :
    p.run (raw ++ bs) = (p.read raw).run bs ∧ Inner (p.read raw).lastChr := by
  induction h generalizing p bs with
  | nil => exact ⟨by simp, by simpa using hl⟩
  | @char c text raw hc h ih =>
      obtain ⟨h₀, h₁, h₂, h₃, h₄⟩ := hp c List.mem_cons_self
      obtain ⟨he, hl'⟩ := ih (fun d hd => hp d (List.mem_cons_of_mem c hd)) (p := p.read [c]) hs
        ⟨h₁, h₂⟩ bs
      rw [List.cons_append, run_stays hs ⟨h₄, Or.inr (Or.inr hl)⟩, he]
      rw [read_append] at hl' ⊢
      exact ⟨rfl, hl'⟩
  | @space g text raw hg h ih =>
      obtain ⟨h₁, hl₁⟩ := run_gap hg hs hl (raw ++ bs)
      obtain ⟨h₂, hl₂⟩ := ih (fun d hd => hp d (List.mem_cons_of_mem SP hd)) (p := p.read g) hs
        hl₁ bs
      rw [List.append_assoc, h₁, h₂]
      rw [read_append] at hl₂ ⊢
      exact ⟨rfl, hl₂⟩

end Parser

/-! ### Header lines -/

/-- The core has taken the lines `done` of a message since `c₀`; `n` is the length they may
announce. -/
structure Collects (c₀ : Core) (n : Nat) (done : List Line) (c : Core) : Prop where
  fine : c.Fine
  heap : c.heap = []
  cb : c.cb = c₀.cb
  messages : c.messages = c₀.messages
  lines : ∃ L, c.msg.lines = c₀.msg.lines ++ L ∧ texts L = done.map Line.view
  remaining : c.remainingBody = if ∃ l ∈ done, IsLength l.text then n else 0

theorem Collects.congr {c₀ c c' : Core} {n : Nat} {done : List Line} (h : Collects c₀ n done c)
    (hmsg : c'.msg = c.msg) (hsize : c'.headerSize = c.headerSize) (hheap : c'.heap = c.heap)
    (hcb : c'.cb = c.cb) (hlog : c'.log = c.log) (hrem : c'.remainingBody = c.remainingBody) :
    Collects c₀ n done c' where
  fine := h.fine.congr hmsg hsize
  heap := hheap.trans h.heap
  cb := hcb.trans h.cb
  messages := by rw [Core.messages, hlog]; exact h.messages
  lines := by rw [hmsg]; exact h.lines
  remaining := hrem.trans h.remaining

/-- `parse_header_line` takes the length from a line that announces it, and nothing from any other
line. -/
theorem parseHeaderLine_line (l : Line) {n : Nat} (hn : n < 2 ^ 64)
    (hlen : IsLength l.text → Announces (l.text.drop 15) n) {m : Nat} (hm : m = 0 ∨ m = n)
    (c : Core) (hc : c.remainingBody = m) :
    parseHeaderLine c l.text =
      (.ok (), { c with remainingBody := if IsLength l.text then n else m }) := by
  unfold parseHeaderLine
  by_cases h : IsLength l.text
  · obtain ⟨ds, ht, hne, hd, hv⟩ := hlen h
    have hstr := strtoul_digits ht hne hd (hv.symm ▸ hn)
    have htext : ¬ (l.text.drop 15 = [] ∨ (strtoul (l.text.drop 15)).2 ≠ []) := by
      rw [hstr]
      rintro (h | h)
      · rcases ht with ht | ht <;> rw [ht] at h
        · exact hne h
        · cases h
      · exact h rfl
    have hsame : ¬ (c.remainingBody ≠ 0 ∧ c.remainingBody ≠ (strtoul (l.text.drop 15)).1) := by
      rw [hstr, hv, hc]
      rintro ⟨h₁, h₂⟩
      exact hm.elim h₁ h₂
    rw [if_pos h, if_pos h]
    dsimp only
    rw [if_neg htext, if_neg hsame, hstr, hv]
  · rw [if_neg h, if_neg h, ← hc]

/-- The pending line is cut out and stored. -/
theorem Collects.cut {c₀ : Core} {n : Nat} {done : List Line} {p : Parser}
    (h : Collects c₀ n done p.toCore) (hn : n < 2 ^ 64) {l : Line} {raw br : List UInt8}
    (hlen : IsLength l.text → Announces (l.text.drop 15) n) (hf : Folded l.text raw)
    (hb : IsBreak br) (hp : p.pending = raw ++ br) :
    ∃ c, p.cut = (.ok (), ⟨c, []⟩) ∧ Collects c₀ n (done ++ [l]) c ∧ c.state = p.state := by
  obtain ⟨htext, hl⟩ := sanitize_folded (t := [NUL]) hf hb l.nonempty l.plain l.single l.head
    l.last
  rcases hs : sanitizeHeaderLine (raw ++ br ++ [NUL]) (raw ++ br).length with ⟨block, len⟩
  rw [hs] at htext hl
  dsimp only at htext hl
  have hm : p.remainingBody = 0 ∨ p.remainingBody = n := by
    rw [h.remaining]
    split_ifs
    · exact Or.inr rfl
    · exact Or.inl rfl
  have hparse := parseHeaderLine_line l hn hlen hm
  rw [← htext] at hparse
  obtain ⟨c, hcut, f, hheap, ⟨hcb, hst, -, -, hlog⟩, hrem, hlines⟩ :=
    finishLine_store hs hparse (c := { p.toCore with heap := [] }) (h.fine.congr rfl rfl) rfl rfl
  refine ⟨c, ?_, ⟨f, hheap, hcb.trans h.cb, ?_, ?_, ?_⟩, hst⟩
  · unfold Parser.cut
    simp only [h.heap, Allocs.next, hp, hcut]
  · have hm := h.messages
    simp only [Core.messages, hlog, Core.parsed, List.filterMap_append] at hm ⊢
    rw [hm]
    simp [Event.seen]
  · obtain ⟨L, hL, hv⟩ := h.lines
    refine ⟨L ++ [(.line block, some len)], ?_, ?_⟩
    · rw [hlines, ← List.append_assoc, ← hL]
    · rw [texts, List.map_append, ← texts, hv, List.map_append]
      simp [HeaderPtr.text, htext, hl, Line.view]
  · rw [hrem, htext]
    by_cases h₁ : IsLength l.text
    · rw [if_pos h₁, if_pos ⟨l, by simp, h₁⟩]
    · rw [if_neg h₁, h.remaining]
      refine if_congr ⟨?_, ?_⟩ rfl rfl
      · rintro ⟨k, hk, hlk⟩
        exact ⟨k, List.mem_append_left _ hk, hlk⟩
      · rintro ⟨k, hk, hlk⟩
        rcases List.mem_append.mp hk with hk | hk
        · exact ⟨k, hk, hlk⟩
        · rw [List.mem_singleton.mp hk] at hlk
          exact (h₁ hlk).elim

/-- The parser has just read a line break in the header of a message, and `next` is to come.  The
line `l` before it is still pending. -/
structure AtBreak (c₀ : Core) (n : Nat) (done : List Line) (l : Line) (next : List UInt8)
    (p : Parser) : Prop where
  collects : Collects c₀ n done p.toCore
  state : p.state = .header
  pending : ∃ raw br, Folded l.text raw ∧ Break br next ∧ p.pending = raw ++ br ∧
    p.lastChr = br.getLastD 0

theorem AtBreak.lastChr {c₀ : Core} {n : Nat} {done : List Line} {l : Line} {next : List UInt8}
    {p : Parser} (h : AtBreak c₀ n done l next p) :
    p.lastChr = LF ∨ (p.lastChr = CR ∧ next.head? ≠ some LF) := by
  obtain ⟨raw, br, -, ⟨hb, hcr⟩, -, hl⟩ := h.pending
  rw [hl]
  cases hb with
  | lf => exact Or.inl rfl
  | crlf => exact Or.inl rfl
  | cr => exact Or.inr ⟨rfl, hcr rfl⟩

theorem AtBreak.cut {c₀ : Core} {n : Nat} {done : List Line} {l : Line} {next : List UInt8}
    {p : Parser} (h : AtBreak c₀ n done l next p) (hn : n < 2 ^ 64)
    (hlen : IsLength l.text → Announces (l.text.drop 15) n) (st : State) :
    ∃ c, Parser.cut { p with state := st } = (.ok (), ⟨c, []⟩) ∧
      Collects c₀ n (done ++ [l]) c ∧ c.state = st := by
  obtain ⟨raw, br, hf, hb, hp, -⟩ := h.pending
  exact Collects.cut (p := { p with state := st }) (h.collects.congr rfl rfl rfl rfl rfl rfl) hn
    hlen hf hb.isBreak hp

/-- The first byte of a line. -/
theorem Line.first (l : Line) {raw : List UInt8} (h : Folded l.text raw) :
    ∃ c text raw', l.text = c :: text ∧ raw = c :: raw' ∧ Plain c ∧ c ≠ SP ∧ Folded text raw' := by
  have hne := l.nonempty
  have hhead := l.head
  have hplain := l.plain
  generalize l.text = text at h hne hhead hplain ⊢
  cases h with
  | nil => exact (hne rfl).elim
  | char hc h => exact ⟨_, _, _, rfl, rfl, hplain _ (by simp), hc, h⟩
  | space => exact (hhead rfl).elim

/-- The rest of a line, from its second byte to its line break. -/
theorem run_line {c₀ : Core} {n : Nat} {done : List Line} {l : Line} {p : Parser}
    (h : Collects c₀ n done p.toCore) (hs : p.state = .header) {c : UInt8}
    {text raw br : List UInt8} (hl : l.text = c :: text) (hf : Folded l.text (c :: raw))
    (hf' : Folded text raw) (hc : Inner c) (hp : p.pending = [c]) (hlast : p.lastChr = c)
    {next : List UInt8} (hb : Break br next) :
    ∃ p', p.run (raw ++ (br ++ next)) = p'.run next ∧ AtBreak c₀ n done l next p' := by
  obtain ⟨hrun, hin⟩ := Parser.run_folded hf'
    (fun d hd => l.plain d (hl ▸ List.mem_cons_of_mem c hd)) hs (hlast ▸ hc) (br ++ next)
  have hbreak := Parser.run_break (p := p.read raw) hs hin hb.isBreak next
  refine ⟨(p.read raw).read br, hrun.trans hbreak, ⟨h.congr rfl rfl rfl rfl rfl rfl, hs, ?_⟩⟩
  refine ⟨c :: raw, br, hf, hb, ?_, ?_⟩
  · simp [Parser.read, hp]
  · obtain ⟨b, br', rfl⟩ := List.exists_cons_of_ne_nil hb.isBreak.ne_nil
    simp only [Parser.read, List.getLastD_cons]

/-- The next line: its first byte tells that the line before is complete. -/
theorem run_next_line {c₀ : Core} {n : Nat} {done : List Line} {l₀ l : Line} {p : Parser}
    {raw br next : List UInt8} (h : AtBreak c₀ n done l₀ (raw ++ (br ++ next)) p) (hn : n < 2 ^ 64)
    (hlen : IsLength l₀.text → Announces (l₀.text.drop 15) n) (hf : Folded l.text raw)
    (hb : Break br next) :
    ∃ p', p.run (raw ++ (br ++ next)) = p'.run next ∧ AtBreak c₀ n (done ++ [l₀]) l next p' := by
  obtain ⟨c, text, raw', hl, rfl, ⟨-, h₁, h₂, h₃, h₄⟩, hsp, hf'⟩ := l.first hf
  have hlast : p.lastChr = CR ∨ p.lastChr = LF := by
    rcases h.lastChr with hl | ⟨hl, -⟩
    · exact Or.inr hl
    · exact Or.inl hl
  obtain ⟨c₁, hcut, hcol, hst⟩ := h.cut hn hlen .header
  rw [show { p with state := .header } = p by rw [← h.state]] at hcut
  have hstep : p.step c = (.ok (), ⟨c₁, [c]⟩) := by
    simp only [Parser.step, h.state, Parser.stepHeader, h₁, h₂, h₃, h₄, hsp, if_false, or_self,
      if_pos hlast, Parser.cutThen, hcut, Parser.keep]
    rfl
  rw [List.cons_append, Parser.run_cons hstep]
  exact run_line (p := ⟨{ c₁ with lastChr := c }, [c]⟩) (hcol.congr rfl rfl rfl rfl rfl rfl) hst hl
    hf hf' ⟨h₁, h₂⟩ rfl rfl hb

/-- **The header.**  From a line break, the parser reads all lines to come up to the last line
break. -/
theorem run_lines {ls : List Line} {rest s : List UInt8} (hls : Lines ls rest s) {c₀ : Core}
    {n : Nat} (hn : n < 2 ^ 64) {done : List Line} {l : Line} {p : Parser}
    (hlen : ∀ k ∈ l :: ls, IsLength k.text → Announces (k.text.drop 15) n)
    (h : AtBreak c₀ n done l s p) :
    ∃ done' l' p', done' ++ [l'] = done ++ l :: ls ∧ p.run s = p'.run rest ∧
      AtBreak c₀ n done' l' rest p' := by
  induction hls generalizing done l p with
  | nil rest => exact ⟨done, l, p, rfl, rfl, h⟩
  | @cons l₁ ls raw br mid rest hf hb hls ih =>
      obtain ⟨p₁, hrun, h₁⟩ := run_next_line h hn (hlen l (by simp)) hf hb
      obtain ⟨done', l', p', hd, hrun', h'⟩ := ih (l := l₁)
        (fun k hk => hlen k (List.mem_cons_of_mem l hk)) h₁
      exact ⟨done', l', p', by simpa using hd, hrun.trans hrun', h'⟩

/-! ### Messages -/

/-- The parser between two messages.  In the state `headerNl` the message was delivered at a CR, and
an LF may yet belong to it. -/
structure Parser.Idle (p : Parser) : Prop where
  fine : p.Fine
  heap : p.heap = []
  state : p.state = .new ∨ (p.state = .headerNl ∧ p.remainingBody = 0)

/-- The parser has delivered one message since `c₀`, and is idle. -/
structure Delivered (c₀ : Core) (m : Message) (p : Parser) : Prop where
  idle : p.Idle
  cb : p.cb = c₀.cb
  lines : p.msg.lines = []
  messages : ∃ L, texts L = m.lines.map Line.view ∧
    p.messages = c₀.messages ++
      if c₀.cb then [⟨c₀.msg.lines ++ L, bodyBlock m.body, m.body.length⟩] else []

/-- All lines are taken: `msg_done` delivers the message. -/
theorem Collects.done {c₀ : Core} {m : Message} {c : Core}
    (h : Collects c₀ m.body.length m.lines c) {st : State} (hst : st = .new ∨ st = .headerNl)
    (ch : UInt8) (pending : List UInt8) :
    Delivered c₀ m ⟨{ msgDone { c with
      msg := { c.msg with body := bodyBlock m.body, bodyLen := m.body.length } } with
        state := st, lastChr := ch, remainingBody := 0 }, pending⟩ where
  idle := ⟨(msgDone_fine h.fine _ _).congr rfl rfl, h.heap, hst.imp_right fun e => ⟨e, rfl⟩⟩
  cb := h.cb
  lines := rfl
  messages := by
    obtain ⟨L, hL, hv⟩ := h.lines
    refine ⟨L, hv, ?_⟩
    have hd := messages_msgDone { c with
      msg := { c.msg with body := bodyBlock m.body, bodyLen := m.body.length } }
    have hm := h.messages
    simp only [Core.messages, h.cb, Msg.seen, Msg.lines] at hd hm hL ⊢
    rw [hd, hm, hL]

/-- Without a body `msg_done` is called on the message as it is. -/
theorem Collects.done_empty {c₀ : Core} {m : Message} {c : Core}
    (h : Collects c₀ m.body.length m.lines c) (hb : m.body = []) {st : State}
    (hst : st = .new ∨ st = .headerNl) (ch : UInt8) (pending : List UInt8) :
    Delivered c₀ m ⟨{ msgDone c with state := st, lastChr := ch, remainingBody := 0 },
      pending⟩ := by
  have hblock : bodyBlock m.body = c.msg.body := by rw [hb, h.fine.body]; rfl
  have hlen : m.body.length = c.msg.bodyLen := by rw [hb, h.fine.bodyLen]; rfl
  have hd := h.done hst ch pending
  rw [hblock, hlen] at hd
  exact hd

/-- The number of body bytes to come, once all lines are taken. -/
theorem Collects.remaining_eq {c₀ : Core} {m : Message} {c : Core}
    (h : Collects c₀ m.body.length m.lines c) : c.remainingBody = m.body.length := by
  rw [h.remaining]
  split_ifs with hl
  · rfl
  · by_contra hb
    exact hl (m.announced fun e => hb (by rw [e]; rfl))

/-- The bytes of a body, behind those that are pending. -/
theorem run_bytes {c : Core} (hh : c.heap = []) {v : List UInt8} (hne : v ≠ []) (u : List UInt8)
    (ch : UInt8) (rest : List UInt8) :
    Parser.run ⟨{ c with state := .body, lastChr := ch, remainingBody := v.length }, u⟩
      (v ++ rest) =
      Parser.run ⟨{ msgDone { c with
          msg := { c.msg with body := some (u ++ v ++ [NUL]), bodyLen := (u ++ v).length } } with
        state := .new, lastChr := v.getLastD ch, remainingBody := 0 }, []⟩ rest := by
  induction v generalizing u ch with
  | nil => exact (hne rfl).elim
  | cons b v ih =>
      cases v with
      | nil =>
          have hstep : Parser.step
              ⟨{ c with state := .body, lastChr := ch, remainingBody := 1 }, u⟩ b =
              (.ok (), ⟨{ msgDone { c with
                  msg := { c.msg with
                    body := some (u ++ [b] ++ [NUL]), bodyLen := (u ++ [b]).length } } with
                state := .new, lastChr := ch, remainingBody := 0 }, []⟩) := by
            simp only [Parser.step, Parser.stepBody, hh, Allocs.next, if_neg one_ne_zero, if_true]
            simp only [msgDone]
          exact Parser.run_cons hstep rest
      | cons b' v =>
          have hstep : Parser.step ⟨{ c with
                state := .body, lastChr := ch, remainingBody := (b :: b' :: v).length }, u⟩ b =
              (.ok (), ⟨{ c with
                state := .body, lastChr := ch, remainingBody := (b' :: v).length },
                u ++ [b]⟩) := by
            simp only [Parser.step, Parser.stepBody, List.length_cons]
            rw [if_neg (by omega), if_neg (by omega)]
            rfl
          have hrest := ih (List.cons_ne_nil b' v) (u ++ [b]) b
          rw [List.append_assoc u [b], List.singleton_append] at hrest
          rw [List.getLastD_cons, List.cons_append]
          exact (Parser.run_cons hstep _).trans hrest

/-- **The body.** -/
theorem run_body {c₀ : Core} {m : Message} {c : Core} (h : Collects c₀ m.body.length m.lines c)
    {u v : List UInt8} (hm : m.body = u ++ v) (hne : v ≠ []) (ch : UInt8)
    (rest : List UInt8) :
    ∃ p', Parser.run ⟨{ c with state := .body, lastChr := ch, remainingBody := v.length }, u⟩
      (v ++ rest) = p'.run rest ∧ Delivered c₀ m p' := by
  have hblock : bodyBlock m.body = some (u ++ v ++ [NUL]) := by
    rw [bodyBlock, if_neg (by simp [hm, hne]), hm]
  have hd := h.done (Or.inl rfl) (v.getLastD ch) []
  rw [hblock, hm] at hd
  exact ⟨_, run_bytes h.heap hne u ch rest, hd⟩

theorem doneIfNoBody_eq (c : Core) (pending : List UInt8) :
    Parser.doneIfNoBody ⟨c, pending⟩ = ⟨(Parser.doneIfNoBody ⟨c, []⟩).toCore, pending⟩ := by
  unfold Parser.doneIfNoBody
  split_ifs <;> rfl

/-- After the empty line: the message is complete, or its body is to come. -/
theorem run_rest {c₀ : Core} {m : Message} {c : Core} (h : Collects c₀ m.body.length m.lines c)
    (ch : UInt8) (rest : List UInt8) :
    ∃ p', Parser.run ⟨{ (Parser.doneIfNoBody ⟨{ c with
        state := if c.remainingBody = 0 then .new else .body }, []⟩).toCore with
          lastChr := ch }, []⟩ (m.body ++ rest) = p'.run rest ∧ Delivered c₀ m p' := by
  have hrem := h.remaining_eq
  by_cases hb : m.body = []
  · have h₀ : c.remainingBody = 0 := by rw [hrem, hb]; rfl
    refine ⟨_, by rw [hb, List.nil_append], ?_⟩
    simp only [Parser.doneIfNoBody, h₀, if_true]
    exact h.done_empty hb (Or.inl rfl) ch []
  · have h₁ : c.remainingBody ≠ 0 := by
      rw [hrem]
      exact fun e => hb (List.eq_nil_of_length_eq_zero e)
    obtain ⟨p', hrun, hd⟩ := run_body h (u := []) (v := m.body) rfl hb ch rest
    refine ⟨p', ?_, hd⟩
    simp only [Parser.doneIfNoBody, h₁, if_false]
    rw [← hrem] at hrun
    exact hrun

/-- In the state `headerNl` a byte that is no LF is read as in the state `body`. -/
theorem run_headerNl {p : Parser} (hs : p.state = .headerNl) {b : UInt8} (hb : b ≠ LF)
    (bs : List UInt8) :
    p.run (b :: bs) = Parser.run { p with pending := [], state := .body } (b :: bs) := by
  have hstep : Parser.reader.step p b =
      Parser.reader.step { p with pending := [], state := .body } b := by
    simp only [Parser.reader, Parser.step, hs, Parser.stepNl, if_neg hb]
  simp only [Parser.run, Reader.run, hstep]

/-- The same after a CR, which is pending as long as an LF may follow. -/
theorem run_rest_cr {c₀ : Core} {m : Message} {c : Core} (h : Collects c₀ m.body.length m.lines c)
    (hst : c.state = .headerNl) {rest : List UInt8} (hnext : (m.body ++ rest).head? ≠ some LF) :
    ∃ p', Parser.run ⟨{ (Parser.doneIfNoBody ⟨c, []⟩).toCore with lastChr := CR }, [CR]⟩
      (m.body ++ rest) = p'.run rest ∧ Delivered c₀ m p' := by
  have hrem := h.remaining_eq
  by_cases hb : m.body = []
  · have h₀ : c.remainingBody = 0 := by rw [hrem, hb]; rfl
    refine ⟨_, by rw [hb, List.nil_append], ?_⟩
    simp only [Parser.doneIfNoBody, h₀, if_true]
    have hd := h.done_empty hb (Or.inr rfl) CR [CR]
    rw [← hst, ← h₀] at hd
    exact hd
  · have h₁ : c.remainingBody ≠ 0 := by
      rw [hrem]
      exact fun e => hb (List.eq_nil_of_length_eq_zero e)
    obtain ⟨p', hrun, hd⟩ := run_body h (u := []) (v := m.body) rfl hb CR rest
    refine ⟨p', ?_, hd⟩
    obtain ⟨b, bs, hbs⟩ := List.exists_cons_of_ne_nil hb
    simp only [Parser.doneIfNoBody, h₁, if_false]
    rw [← hrem] at hrun
    rw [hbs] at hnext hrun ⊢
    rw [List.cons_append, run_headerNl (p := ⟨{ c with lastChr := CR }, [CR]⟩) hst
      (by simpa using hnext)]
    exact hrun

/-- The empty line, the rest of the message, and what follows. -/
theorem run_empty_line {c₀ : Core} {m : Message} {p : Parser} {done : List Line} {l : Line}
    {br rest : List UInt8} (h : AtBreak c₀ m.body.length done l (br ++ (m.body ++ rest)) p)
    (hd : done ++ [l] = m.lines) (hb : Break br (m.body ++ rest)) (hn : m.body.length < 2 ^ 64) :
    ∃ p', p.run (br ++ (m.body ++ rest)) = p'.run rest ∧ Delivered c₀ m p' := by
  have hlen := m.length l (by rw [← hd]; simp)
  have hlast : p.lastChr = CR ∨ p.lastChr = LF := by
    rcases h.lastChr with hl | ⟨hl, -⟩
    · exact Or.inr hl
    · exact Or.inl hl
  have hcr : ∃ c, p.step CR = (.ok (), ⟨(Parser.doneIfNoBody ⟨c, []⟩).toCore, [CR]⟩) ∧
      Collects c₀ m.body.length m.lines c ∧ c.state = .headerNl := by
    obtain ⟨c, hcut, hcol, hst⟩ := h.cut hn hlen .headerNl
    rw [hd] at hcol
    refine ⟨c, ?_, hcol, hst⟩
    simp only [Parser.step, h.state, Parser.stepHeader, if_true, if_pos hlast, Parser.cutThen, hcut,
      Parser.keep, Parser.pending_doneIfNoBody, List.nil_append]
  obtain ⟨hbr, hnext⟩ := hb
  cases hbr with
  | lf =>
      have hlf : p.lastChr = LF := by
        rcases h.lastChr with hl | ⟨-, hl⟩
        · exact hl
        · exact (hl rfl).elim
      obtain ⟨c, hcut, hcol, -⟩ := h.cut hn hlen .header
      rw [show { p with state := .header } = p by rw [← h.state]] at hcut
      rw [hd] at hcol
      have hstep : p.step LF = (.ok (), Parser.doneIfNoBody ⟨{ c with
          state := if c.remainingBody = 0 then .new else .body }, []⟩) := by
        simp only [Parser.step, h.state, Parser.stepHeader, if_neg (show LF ≠ CR by decide),
          if_pos hlf, Parser.cutThen, hcut, if_true]
      obtain ⟨p', hrun, hdel⟩ := run_rest hcol LF rest
      refine ⟨p', ?_, hdel⟩
      rw [doneIfNoBody_eq] at hstep
      exact (Parser.run_cons hstep _).trans hrun
  | cr =>
      obtain ⟨c, hstep, hcol, hst⟩ := hcr
      obtain ⟨p', hrun, hdel⟩ := run_rest_cr hcol hst (hnext rfl)
      exact ⟨p', (Parser.run_cons hstep _).trans hrun, hdel⟩
  | crlf =>
      obtain ⟨c, hstep, hcol, hst⟩ := hcr
      obtain ⟨p', hrun, hdel⟩ := run_rest hcol LF rest
      refine ⟨p', ?_, hdel⟩
      have hnl : Parser.step
          ⟨{ (Parser.doneIfNoBody ⟨c, []⟩).toCore with lastChr := CR }, [CR]⟩ LF =
          (.ok (), ⟨{ (Parser.doneIfNoBody ⟨{ c with
            state := if c.remainingBody = 0 then .new else .body }, []⟩).toCore with
              lastChr := CR }, []⟩) := by
        by_cases h₀ : c.remainingBody = 0
        · simp only [Parser.doneIfNoBody, h₀, if_true, Parser.step, msgDone, hst, Parser.stepNl]
        · simp only [Parser.doneIfNoBody, h₀, if_false, Parser.step, hst, Parser.stepNl, if_true]
      exact (Parser.run_cons hstep _).trans ((Parser.run_cons hnl _).trans hrun)

/-! ### Streams -/

/-- White-space between messages is skipped. -/
theorem Parser.Idle.white {p : Parser} (h : p.Idle) {c : UInt8} (hc : White c) (bs : List UInt8) :
    ∃ p' : Parser, p.run (c :: bs) = p'.run bs ∧ p'.Idle ∧ p'.cb = p.cb ∧
      p'.msg.lines = p.msg.lines ∧
      p'.messages = p.messages := by
  have hnew : ∀ q : Parser, q.stepNew c = q.keep c := fun q => by
    unfold Parser.stepNew
    exact if_pos hc
  rcases h.state with hs | ⟨hs, hr⟩
  · have hstep : p.step c = p.keep c := by simp only [Parser.step, hs, hnew]
    exact ⟨_, Parser.run_cons hstep bs, ⟨h.fine.congr rfl rfl, h.heap, Or.inl hs⟩, rfl, rfl, rfl⟩
  · by_cases hlf : c = LF
    · have hstep : p.step c = (.ok (), { p with pending := [], state := .new }) := by
        simp only [Parser.step, hs, Parser.stepNl, if_pos hlf, hr, if_true]
      exact ⟨_, Parser.run_cons hstep bs, ⟨h.fine.congr rfl rfl, h.heap, Or.inl rfl⟩, rfl, rfl, rfl⟩
    · have hstep : p.step c = (.ok (), { p with pending := [c], state := .new }) := by
        simp only [Parser.step, hs, Parser.stepNl, if_neg hlf, Parser.stepBody, hr, if_true, hnew]
        rfl
      exact ⟨_, Parser.run_cons hstep bs, ⟨h.fine.congr rfl rfl, h.heap, Or.inl rfl⟩, rfl, rfl, rfl⟩

/-- The first byte of a message. -/
theorem Parser.Idle.begin {p : Parser} (h : p.Idle) {c : UInt8} (hc : ¬ White c)
    (bs : List UInt8) (n : Nat) :
    ∃ c₁ : Core, p.run (c :: bs) = Parser.run ⟨{ c₁ with lastChr := c }, [c]⟩ bs ∧
      Collects p.toCore n [] c₁ ∧ c₁.state = .header := by
  have hlf : c ≠ LF := fun e => hc (Or.inr (Or.inl e))
  have hnew : ∀ q : Parser, q.stepNew c = (.ok (), { q with
      state := .header, remainingBody := 0, log := q.log ++ [.begin], pending := [c] }) :=
    fun q => by
      unfold Parser.stepNew
      exact if_neg hc
  refine ⟨{ p.toCore with state := .header, remainingBody := 0, log := p.log ++ [.begin] },
    Parser.run_cons (q := ⟨{ p.toCore with
      state := .header, remainingBody := 0, log := p.log ++ [.begin] }, [c]⟩) ?_ bs,
    ⟨h.fine.congr rfl rfl, h.heap, rfl, ?_, ⟨[], by simp, rfl⟩, rfl⟩, rfl⟩
  · rcases h.state with hs | ⟨hs, hr⟩
    · simp only [Parser.step, hs, hnew]
    · simp only [Parser.step, hs, Parser.stepNl, if_neg hlf, Parser.stepBody, hr, if_true, hnew]
  · simp [Core.messages, Event.seen]

/-- **One message.**  Lines collected before it (none, unless the decoder was flushed in the middle
of a message) are delivered in front of its own. -/
theorem run_message {m : Message} {rest s : List UInt8} (he : Encodes m rest s)
    (hn : m.body.length < 2 ^ 64) {p : Parser} (h : p.Idle) :
    ∃ p', p.run s = p'.run rest ∧ Delivered p.toCore m p' := by
  obtain ⟨hb, hl⟩ := he
  rcases hms : m.lines with _ | ⟨l, ls⟩
  · exact (m.nonempty hms).elim
  rw [hms] at hl
  cases hl with
  | cons hf hbr hls =>
  obtain ⟨c, text, raw', htext, rfl, ⟨hnul, hcr, hlf, htab, -⟩, hsp, hf'⟩ := l.first hf
  have hw : ¬ White c := by
    rintro (e | e | e | e)
    · exact hcr e
    · exact hlf e
    · exact htab e
    · exact hsp e
  obtain ⟨c₁, hrun, hcol, hst⟩ := h.begin hw _ m.body.length
  obtain ⟨p₂, hrun₂, h₂⟩ := run_line (p := ⟨{ c₁ with lastChr := c }, [c]⟩)
    (hcol.congr rfl rfl rfl rfl rfl rfl) hst htext hf hf' ⟨hcr, hlf⟩ rfl rfl hbr
  obtain ⟨done, l', p₃, hd, hrun₃, h₃⟩ := run_lines hls hn
    (fun k hk => m.length k (by rw [hms]; exact hk)) h₂
  obtain ⟨p₄, hrun₄, h₄⟩ := run_empty_line h₃ (hd.trans (by rw [hms]; rfl)) hb hn
  exact ⟨p₄, hrun.trans (hrun₂.trans (hrun₃.trans hrun₄)), h₄⟩

theorem Parser.Idle.whites {ws : List UInt8} (hw : ∀ c ∈ ws, White c) {p : Parser} (h : p.Idle)
    (bs : List UInt8) :
    ∃ p' : Parser, p.run (ws ++ bs) = p'.run bs ∧ p'.Idle ∧ p'.cb = p.cb ∧
      p'.msg.lines = p.msg.lines ∧ p'.messages = p.messages := by
  induction ws generalizing p with
  | nil => exact ⟨p, rfl, h, rfl, rfl, rfl⟩
  | cons c ws ih =>
      obtain ⟨p₁, hrun, h₁, hcb, hl, hm⟩ := h.white (hw c List.mem_cons_self) (ws ++ bs)
      obtain ⟨p₂, hrun₂, h₂, hcb₂, hl₂, hm₂⟩ := ih (fun d hd => hw d (List.mem_cons_of_mem c hd)) h₁
      exact ⟨p₂, hrun.trans hrun₂, h₂, hcb₂.trans hcb, hl₂.trans hl, hm₂.trans hm⟩

theorem Lines.length_le {ls : List Line} {rest s : List UInt8} (h : Lines ls rest s) :
    rest.length ≤ s.length := by
  induction h with
  | nil => exact le_rfl
  | cons hf hb h ih => simp only [List.length_append]; omega

theorem Encodes.length_le {m : Message} {rest s : List UInt8} (h : Encodes m rest s) :
    m.body.length + rest.length ≤ s.length := by
  obtain ⟨hb, hl⟩ := h
  have := hl.length_le
  simp only [List.length_append] at this
  omega

/-- **A stream of messages**, read by an idle parser that holds no header line. -/
theorem run_stream {ms : List Message} {s : List UInt8} (hs : Stream ms s)
    (hlen : s.length < 2 ^ 64) {p : Parser} (h : p.Idle) (hcb : p.cb = true)
    (hl : p.msg.lines = []) :
    ∃ p' : Parser, p.run s = (.ok (), p') ∧
      p'.messages.map Seen.view = p.messages.map Seen.view ++ ms.map Message.view := by
  induction hs generalizing p with
  | nil => exact ⟨p, rfl, by simp⟩
  | @cons m ms ws s rest hw he hs ih =>
      have hle := he.length_le
      rw [List.length_append] at hlen
      obtain ⟨p₁, hrun₁, h₁, hcb₁, hl₁, hm₁⟩ := h.whites hw s
      obtain ⟨p₂, hrun₂, h₂⟩ := run_message he (by omega) h₁
      obtain ⟨L, hL, hm₂⟩ := h₂.messages
      rw [hl₁, hl, List.nil_append, hcb₁, hcb, if_pos rfl, hm₁] at hm₂
      obtain ⟨p₃, hrun₃, hm₃⟩ := ih (by omega) h₂.idle (by rw [h₂.cb, hcb₁, hcb]) h₂.lines
      refine ⟨p₃, hrun₁.trans (hrun₂.trans hrun₃), ?_⟩
      have hview : Seen.view ⟨L, bodyBlock m.body, m.body.length⟩ = m.view := by
        simp only [Seen.view, Message.view, hL]
      rw [hm₃, hm₂, List.map_append, List.append_assoc, List.map_cons, List.map_cons, hview]
      rfl

/-- **Framing.**  A fresh decoder that is fed messages one after the other delivers these messages,
with these header lines and this body, and no other. -/
theorem feed_stream (ms : List Message) (s : Buffer) (hs : Stream ms s) :
    (feed (Decoder.fresh true) s).1 = .ok () ∧
      (feed (Decoder.fresh true) s).2.messages.map Seen.view = ms.map Message.view := by
  have hlen : s.1.length ≤ SizeT.ptrdiffMax := s.2
  have hidle : Parser.Idle ⟨(Decoder.fresh true).toCore, []⟩ := ⟨fine_fresh true, rfl, Or.inl rfl⟩
  obtain ⟨p, hrun, hm⟩ :=
    run_stream hs (by simp only [SizeT.ptrdiffMax] at hlen; omega) hidle rfl rfl
  obtain ⟨hr, hd⟩ := feed_empty (d := Decoder.fresh true) ShlRing.wf_zeroed rfl
    (by simp [Decoder.fresh]) s
  rw [Parser.feed, hrun] at hr hd
  refine ⟨hr, ?_⟩
  rw [Decoder.core_eq hd, Parser.settle, hm]
  rfl

/-- A folded line ended by a lone CR, and a body that is a line break. -/
theorem feed_stream_pipelined :
    (feed (Decoder.fresh true) (str "a\n b\r\r Content-Length: 1\r\n\r\n\n")).2.messages.map
        Seen.view =
      [([(some (str "a b"), some 3)], none, 0),
        ([(some (str "Content-Length: 1"), some 17)], some [LF, NUL], 1)] := by
  refine (feed_stream
    [⟨[⟨str "a b", by decide, plain_of_all (by decide), by decide, by decide, by decide⟩],
      [], by decide,
        fun h => (h rfl).elim, fun l hl h => ?_⟩,
      ⟨[⟨str "Content-Length: 1", by decide, plain_of_all (by decide), by decide, by decide,
          by decide⟩], [LF], by decide, fun _ => ⟨_, List.mem_singleton_self _, by decide⟩,
          fun l hl _ => ?_⟩]
    ⟨str "a\n b\r\r Content-Length: 1\r\n\r\n\n", by decide⟩
    (@Stream.cons _ _ [] _ (str " Content-Length: 1\r\n\r\n\n") (by simp)
      (@Encodes.intro _ _ [CR] _ ⟨.cr, ?_⟩
        (@Lines.cons _ _ (str "a\n b") [CR] _ _ ?_ ⟨.cr, by decide⟩ (.nil _)))
      (@Stream.cons _ _ [SP] _ [] (by simp [White])
        (@Encodes.intro _ _ [CR, LF] _ ⟨.crlf, ?_⟩
          (@Lines.cons _ _ (str "Content-Length: 1") [CR, LF] _ _ (.refl _) ⟨.crlf, by decide⟩
            (.nil _)))
        .nil))).2
  · rw [List.mem_singleton.mp hl] at h
    exact absurd h (by decide)
  · rw [List.mem_singleton.mp hl]
    exact ⟨[49], Or.inr rfl, by decide, by simp [isDigit], by decide⟩
  · decide
  · exact .char (by decide) (.space (.folded .lf (Or.inl rfl)) (.char (by decide) .nil))
  · decide

end OpenWfd.Rtsp
