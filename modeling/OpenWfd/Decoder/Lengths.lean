import OpenWfd.Decoder.Messages
import OpenWfd.Decoder.Sections

/-!
# Decoder — Lengths

The `content-length` lines of a header section.  What the decoder knows of the earlier ones is
`remaining_body`, and there 0 also stands for none.  So it takes a section exactly if all its length
texts denote numbers, and their values are zeros followed by copies of one value (`Compatible`):
lines that disagree are taken when the first of them say 0 (`same_length`).

Each number is read by `strtoul`, which takes a sign and lets a number that is out of range wrap or
saturate (`length_value`).
-/

namespace OpenWfd.Rtsp

open SizeT (ptrdiffMax)

/-! ### Sections that are taken -/

/-- The value of a length text. -/
def lengthValue (t : List UInt8) : Option Nat := (number t).map ulong

theorem nextLength_zero (t : List UInt8) : nextLength 0 t = lengthValue t := by
  unfold nextLength lengthValue
  cases number t with
  | none => rfl
  | some z => exact if_neg fun h => h.1 rfl

/-- After a length that is not 0, every other one has to be the same. -/
theorem nextLength_pos {m n : Nat} (hm : m ≠ 0) (t : List UInt8) :
    nextLength m t = some n ↔ n = m ∧ lengthValue t = some m := by
  unfold nextLength lengthValue
  cases number t with
  | none => simp
  | some z =>
      dsimp only
      by_cases hz : m = ulong z
      · rw [if_neg fun h => h.2 hz, ← hz]
        simp [eq_comm, ← hz]
      · rw [if_pos ⟨hm, hz⟩]
        simp [Ne.symm hz]

theorem foldlM_nextLength_pos {m n : Nat} (hm : m ≠ 0) (ts : List (List UInt8)) :
    ts.foldlM nextLength m = some n ↔ n = m ∧ ∀ t ∈ ts, lengthValue t = some m := by
  induction ts with
  | nil => simp [eq_comm]
  | cons t ts ih =>
      rw [List.foldlM_cons, Option.bind_eq_bind, Option.bind_eq_some_iff, List.forall_mem_cons]
      constructor
      · rintro ⟨k, hk, hrest⟩
        obtain ⟨rfl, ht⟩ := (nextLength_pos hm t).mp hk
        obtain ⟨hn, hall⟩ := ih.mp hrest
        exact ⟨hn, ht, hall⟩
      · rintro ⟨hn, ht, hall⟩
        exact ⟨m, (nextLength_pos hm t).mpr ⟨rfl, ht⟩, ih.mpr ⟨hn, hall⟩⟩

/-- The length texts denote numbers, whose values are zeros and then copies of `n`. -/
def Announced (ts : List (List UInt8)) (n : Nat) : Prop :=
  ∃ zs vs, ts = zs ++ vs ∧ (∀ t ∈ zs, lengthValue t = some 0) ∧ (∀ t ∈ vs, lengthValue t = some n) ∧
    (n ≠ 0 → vs ≠ [])

/-- The decoder takes them. -/
def Compatible (ts : List (List UInt8)) : Prop := ∃ n, Announced ts n

/-- **The lengths of a section**, taken one after the other. -/
theorem foldlM_nextLength {n : Nat} (ts : List (List UInt8)) :
    ts.foldlM nextLength 0 = some n ↔ Announced ts n := by
  constructor
  · intro h
    induction ts with
    | nil =>
        obtain rfl : 0 = n := Option.some.inj h
        exact ⟨[], [], rfl, by simp, by simp, fun hn => absurd rfl hn⟩
    | cons t ts ih =>
        rw [List.foldlM_cons, nextLength_zero, Option.bind_eq_bind, Option.bind_eq_some_iff] at h
        obtain ⟨u, ht, hrest⟩ := h
        by_cases hu : u = 0
        · subst hu
          obtain ⟨zs, vs, rfl, hz, hv, hne⟩ := ih hrest
          exact ⟨t :: zs, vs, rfl, List.forall_mem_cons.mpr ⟨ht, hz⟩, hv, hne⟩
        · obtain ⟨rfl, hall⟩ := (foldlM_nextLength_pos hu ts).mp hrest
          exact ⟨[], t :: ts, rfl, by simp, List.forall_mem_cons.mpr ⟨ht, hall⟩,
            fun _ => List.cons_ne_nil _ _⟩
  · rintro ⟨zs, vs, rfl, hz, hv, hne⟩
    induction zs with
    | cons t zs ih =>
        obtain ⟨ht, hz⟩ := List.forall_mem_cons.mp hz
        rw [List.cons_append, List.foldlM_cons, nextLength_zero, ht]
        exact ih hz
    | nil =>
        rw [List.nil_append]
        cases vs with
        | nil =>
            have hn : n = 0 := by
              by_contra hn
              exact hne hn rfl
            rw [hn]
            rfl
        | cons t vs =>
            obtain ⟨ht, hv⟩ := List.forall_mem_cons.mp hv
            rw [List.foldlM_cons, nextLength_zero, ht]
            by_cases hn : n = 0
            · subst hn
              have hzero : ∀ ts : List (List UInt8), (∀ t ∈ ts, lengthValue t = some 0) →
                  ts.foldlM nextLength 0 = some 0 := by
                intro ts hts
                induction ts with
                | nil => rfl
                | cons t ts ih =>
                    obtain ⟨ht, hts⟩ := List.forall_mem_cons.mp hts
                    rw [List.foldlM_cons, nextLength_zero, ht]
                    exact ih hts
              exact hzero vs hv
            · exact (foldlM_nextLength_pos hn vs).mpr ⟨rfl, hv⟩

/-! ### Feeding a section -/

/-- The decoder is between two messages. -/
def Core.Between (c : Core) : Prop :=
  c.state = .new ∨ (c.state = .headerNl ∧ c.remainingBody = 0)

/-- Feed the chunks one after the other, up to the first call that fails, the allocations
succeeding. -/
def feedFrom (d : Decoder) (chunks : List (List UInt8)) : Except Errno Unit × Decoder :=
  feedChunks { d with heap := [] } chunks

/-- The header section that was fed is accepted: the message was delivered, or its body is to
come. -/
def Accepted (d : Decoder) (x : Except Errno Unit × Decoder) : Prop :=
  x.1 = .ok () ∧
    ((x.2.remainingBody = 0 ∧ (d.cb = true → ∃ s, x.2.messages = d.messages ++ [s])) ∨
      (0 < x.2.remainingBody ∧ (x.2.state = .headerNl ∨ x.2.state = .body)))

section

variable {cb : Bool} {ls : List (Call × Except Errno Unit)} {d : Decoder} {bs : List UInt8}
  {raws chunks : List (List UInt8)}

/-- What the parser sees of a decoder whose allocations succeed from now on. -/
def Decoder.idle (d : Decoder) : Parser := { d.parser with heap := [] }

theorem idle_of_between (h : decoderLts.Run (Decoder.fresh cb) ls d) (hb : d.Between) :
    d.idle.Idle :=
  ⟨(reachable_sends h).2.kept.fine.congr rfl rfl, rfl, hb⟩

/-- The chunks are parsed as one text. -/
theorem feedFrom_eq (h : decoderLts.Run (Decoder.fresh cb) ls d)
    (hroom : d.ring.contents.length + chunks.flatten.length ≤ ptrdiffMax) :
    d.idle.feed chunks.flatten = ((feedFrom d chunks).1, (feedFrom d chunks).2.parser) :=
  (feedChunks_eq_run (d := { d with heap := [] }) (reachable_sends h).1 rfl hroom rfl).2

/-- **A header section** fed to a decoder between two messages: it is refused, or accepted. -/
theorem feedFrom_section (h : decoderLts.Run (Decoder.fresh cb) ls d) (hb : d.Between)
    (hbs : headerLines bs = some raws) (hc : chunks.flatten = bs)
    (hroom : d.ring.contents.length + bs.length ≤ ptrdiffMax) :
    (¬ Compatible (lengths raws) ∧ (feedFrom d chunks).1 = .error .EINVAL) ∨
      (Compatible (lengths raws) ∧ Accepted d (feedFrom d chunks)) := by
  have heq := feedFrom_eq h (by rw [hc]; exact hroom)
  rw [hc] at heq
  rcases run_section hbs (idle_of_between h hb) with ⟨hn, q, hrun⟩ | ⟨n, p', hn, hrun, hend⟩ <;>
    rw [foldlM_nextLine] at hn <;> rw [Parser.feed, hrun] at heq
  · refine Or.inl ⟨?_, (Prod.mk.inj heq).1.symm⟩
    rintro ⟨n, ha⟩
    rw [(foldlM_nextLength _).mpr ha] at hn
    cases hn
  · obtain ⟨hok, hp⟩ := Prod.mk.inj heq
    have hcore := Decoder.core_eq hp.symm
    refine Or.inr ⟨⟨n, (foldlM_nextLength _).mp hn⟩, hok.symm, ?_⟩
    rw [hcore]
    cases hend with
    | done idle remaining hcb s messages body =>
        refine Or.inl ⟨remaining, fun hd => ⟨s, ?_⟩⟩
        have hd : d.idle.cb = true := hd
        rw [hd, if_pos rfl] at messages
        exact messages
    | body pos remaining fine heap quiet state =>
        exact Or.inr ⟨by rw [remaining]; exact pos, state.symm.imp And.left And.left⟩

/-! ### Lines that disagree -/

/-- A section is accepted only if its length texts all denote one number, and refused with `EINVAL`
if two of them differ. -/
def SameLength (d : Decoder) (raws chunks : List (List UInt8)) : Prop :=
  (Accepted d (feedFrom d chunks) → ∃ z, ∀ t ∈ lengths raws, number t = some z) ∧
    ((∃ t ∈ lengths raws, ∃ u ∈ lengths raws, number t ≠ number u) →
      (feedFrom d chunks).1 = .error .EINVAL)

/-- **Lines that disagree** are refused, unless the values of the texts are zeros followed by copies
of one value. -/
theorem same_length (h : decoderLts.Run (Decoder.fresh cb) ls d) (hb : d.Between)
    (hbs : headerLines bs = some raws) (hc : chunks.flatten = bs)
    (hroom : d.ring.contents.length + bs.length ≤ ptrdiffMax) :
    SameLength d raws chunks ↔
      (Compatible (lengths raws) → ∃ z, ∀ t ∈ lengths raws, number t = some z) := by
  rcases feedFrom_section h hb hbs hc hroom with ⟨hno, herr⟩ | ⟨hyes, hacc⟩
  · constructor
    · exact fun _ hyes => absurd hyes hno
    · intro _
      refine ⟨fun hacc => ?_, fun _ => herr⟩
      have hok := hacc.1
      rw [herr] at hok
      cases hok
  · constructor
    · exact fun hsame _ => hsame.1 hacc
    · intro hsame
      obtain ⟨z, hz⟩ := hsame hyes
      refine ⟨fun _ => ⟨z, hz⟩, ?_⟩
      rintro ⟨t, ht, u, hu, hne⟩
      exact absurd ((hz t ht).trans (hz u hu).symm) hne

end

/-- Two lines that differ: no length is announced by both. -/
theorem same_length_differ :
    SameLength (Decoder.fresh true) [str "content-length: 5\r\n", str "content-length: 6\r\n"]
      [str "content-length: 5\r\ncontent-length: 6\r\n\r\n"] := by
  refine (@same_length _ _ _ (str "content-length: 5\r\ncontent-length: 6\r\n\r\n") _ _
    (.nil (Decoder.fresh true)) (Or.inl rfl) (by decide) (by simp) (by decide)).mpr ?_
  rintro ⟨n, hn⟩
  have hnone : (lengths [str "content-length: 5\r\n", str "content-length: 6\r\n"]).foldlM
      nextLength 0 = none := by decide
  rw [(foldlM_nextLength _).mpr hn] at hnone
  cases hnone

/-- A line that says 0, before one that does not. -/
theorem same_length_zero :
    ¬ ∀ (cb : Bool) (ls : List (Call × Except Errno Unit)) (d : Decoder) (bs : List UInt8)
      (raws chunks : List (List UInt8)),
      decoderLts.Run (Decoder.fresh cb) ls d → d.Between → headerLines bs = some raws →
      chunks.flatten = bs → d.ring.contents.length + bs.length ≤ ptrdiffMax →
      SameLength d raws chunks := by
  intro hall
  have hsame := hall true [] (Decoder.fresh true) (str "content-length: 0\ncontent-length: 5\n\n")
    [str "content-length: 0\n", str "content-length: 5\n"]
    [str "content-length: 0\ncontent-length: 5\n\n"] (.nil _) (Or.inl rfl) (by decide) (by simp)
    (by decide)
  have herr := hsame.2 ⟨str " 0", by decide, str " 5", by decide, by decide⟩
  have hone : feedFrom (Decoder.fresh true) [str "content-length: 0\ncontent-length: 5\n\n"] =
      feed (Decoder.fresh true) (str "content-length: 0\ncontent-length: 5\n\n") :=
      feedChunks_one _ _
  have hfeed :=
    (feed_empty (d := Decoder.fresh true) ShlRing.wf_zeroed rfl (by simp [Decoder.fresh])
    ⟨str "content-length: 0\ncontent-length: 5\n\n", by decide⟩).1
  rw [hone, hfeed] at herr
  exact absurd herr (by decide)

/-! ### The value of a line -/

/-- What `parse_header_line` does with a line that announces a length: it takes it only if the rest
is white-space and the digits of a number below `2⁶⁴`, and refuses it otherwise. -/
def ReadsNumeral (c : Core) (line : List UInt8) : Prop :=
  ((parseHeaderLine c line).1 = .ok () → ∃ v, Numeral (line.drop 15) v) ∧
    ((¬ ∃ v, Numeral (line.drop 15) v) → (parseHeaderLine c line).1 = .error .EINVAL)

/-- The body collected behind the section `bs`, if that is accepted, is exactly the next `v`
bytes. -/
def CollectsBody (d : Decoder) (bs : List UInt8) (v : Nat) : Prop :=
  ∀ (body : List UInt8) (chunks : List (List UInt8)), body.length = v →
    chunks.flatten = bs ++ body →
    (bs.getLast? = some CR → body.head? ≠ some LF) →
    d.ring.contents.length + (bs ++ body).length ≤ ptrdiffMax →
    (feedFrom d chunks).1 = .ok () →
      ∃ s : Seen, (feedFrom d chunks).2.messages = d.messages ++ [s] ∧ s.body = bodyBlock body ∧
        s.bodyLen = v

theorem reads_numeral {c : Core} {line : List UInt8} (hl : IsLength line) :
    ReadsNumeral c line ↔ (∃ v, Numeral (line.drop 15) v) ∨
      ∀ z, number (line.drop 15) = some z → c.remainingBody ≠ 0 ∧ c.remainingBody ≠ ulong z := by
  unfold ReadsNumeral
  rw [parseHeaderLine_length hl, nextLength]
  cases hn : number (line.drop 15) with
  | none => simp
  | some z =>
      dsimp only
      by_cases hbad : c.remainingBody ≠ 0 ∧ c.remainingBody ≠ ulong z
      · rw [if_pos hbad]
        simp [hbad]
      · rw [if_neg hbad]
        simp [hbad]

/-- The length that the section announces is that of each of its texts, but for zeros before it. -/
theorem Announced.eq {ts : List (List UInt8)} {n v : Nat} (h : Announced ts n) {t : List UInt8}
    (ht : t ∈ ts) (hv : lengthValue t = some v) (hz : v ≠ 0 ∨ ∀ u ∈ ts, number u = some 0) :
    v = n := by
  obtain ⟨zs, vs, rfl, hzs, hvs, hne⟩ := h
  rcases List.mem_append.mp ht with ht | ht
  · have h₀ : v = 0 := Option.some.inj (hv.symm.trans (hzs t ht))
    have hall := hz.resolve_left (not_not.mpr h₀)
    by_contra hn
    obtain ⟨u, vs, rfl⟩ := List.exists_cons_of_ne_nil (hne (by omega))
    have hu := hvs u List.mem_cons_self
    rw [lengthValue, hall u (List.mem_append_right _ List.mem_cons_self)] at hu
    have hn₀ : 0 = n := Option.some.inj hu
    omega
  · exact Option.some.inj (hv.symm.trans (hvs t ht))

/-- A length that is not 0 is announced as soon as one text has one. -/
theorem Announced.ne_zero {ts : List (List UInt8)} {n : Nat} (h : Announced ts n) {u : List UInt8}
    (hu : u ∈ ts) (hne : number u ≠ some 0) : n ≠ 0 := by
  rintro rfl
  obtain ⟨zs, vs, rfl, hzs, hvs, -⟩ := h
  have hval : lengthValue u = some 0 := (List.mem_append.mp hu).elim (hzs u) (hvs u)
  obtain ⟨z, hz, hulong⟩ := Option.map_eq_some_iff.mp hval
  rw [ulong_eq_zero.mp hulong] at hz
  exact hne hz

section

variable {ls : List (Call × Except Errno Unit)} {d : Decoder} {bs : List UInt8}
  {raws : List (List UInt8)}

/-- The body behind a section. -/
theorem run_ended {p p' : Parser} {n : Nat} (h : Ended p bs n p') (hcb : p.cb = true)
    {body : List UInt8} (hlen : body.length = n)
    (hcr : bs.getLast? = some CR → body.head? ≠ some LF) :
    ∃ q s, p'.run body = (.ok (), q) ∧ q.messages = p.messages ++ [s] ∧ s.body = bodyBlock body ∧
      s.bodyLen = n := by
  cases h with
  | done idle remaining cb s messages hbody =>
      obtain rfl := List.eq_nil_of_length_eq_zero hlen
      rw [hcb, if_pos rfl] at messages
      exact ⟨p', s, rfl, messages, hbody⟩
  | body pos remaining fine heap quiet state =>
      have hne : body ≠ [] := by
        rintro rfl
        rw [← hlen] at pos
        exact absurd pos (Nat.lt_irrefl 0)
      -- behind a CR, the first byte tells that no LF comes
      have hrun : p'.run body = Parser.run ⟨{ p'.toCore with
          state := .body, lastChr := p'.lastChr, remainingBody := body.length }, []⟩ body := by
        rw [hlen, ← remaining]
        rcases state with ⟨hst, hpend⟩ | ⟨hst, hlast⟩
        · rw [← hst, ← hpend]
        · obtain ⟨b, body, rfl⟩ := List.exists_cons_of_ne_nil hne
          exact run_headerNl hst (by simpa using hcr hlast) body
      have hbytes := run_bytes heap hne [] p'.lastChr []
      rw [List.append_nil, List.nil_append] at hbytes
      have hm := messages_msgDone { p'.toCore with
        msg := { p'.msg with body := some (body ++ [NUL]), bodyLen := body.length } }
      have hcb' : p'.cb = true := quiet.1.trans hcb
      have hmsg : p'.messages = p.messages := quiet.2
      refine ⟨_, Msg.seen { p'.msg with body := some (body ++ [NUL]), bodyLen := body.length },
        hrun.trans hbytes, ?_, ?_, hlen⟩
      · have hm : _ = p'.messages ++ _ := hm
        rw [hmsg, if_pos hcb'] at hm
        exact hm
      · rw [bodyBlock, if_neg hne]
        rfl

/-- **The body** is as long as the line says, unless the line says 0 and another one does not. -/
theorem collects_body (h : decoderLts.Run (Decoder.fresh true) ls d) (hb : d.Between)
    (hbs : headerLines bs = some raws) (hroom : d.ring.contents.length + bs.length ≤ ptrdiffMax)
    {t : List UInt8} {v : Nat} (ht : t ∈ lengths raws) (hv : Numeral t v) :
    CollectsBody d bs v ↔
      (Compatible (lengths raws) → v ≠ 0 ∨ ∀ u ∈ lengths raws, number u = some 0) := by
  have hcb : d.idle.cb = true := (reachable_sound h).2.2
  have hidle := idle_of_between h hb
  have hval : lengthValue t = some v := by
    rw [lengthValue, hv.number_eq, Option.map_some, ulong_natCast hv.fits]
  constructor
  · intro hall hcompat
    by_contra hno
    rw [not_or, not_not] at hno
    obtain ⟨rfl, hne⟩ := hno
    obtain ⟨u, hu, hu₀⟩ : ∃ u ∈ lengths raws, number u ≠ some 0 := by simpa using hne
    obtain ⟨hok, -⟩ : Accepted d (feedFrom d [bs]) := by
      rcases feedFrom_section h hb hbs (List.flatten_singleton) hroom with ⟨hno, -⟩ | ⟨-, hacc⟩
      · exact absurd hcompat hno
      · exact hacc
    obtain ⟨s, hs, -, -⟩ := hall [] [bs] rfl (by simp) (by simp) (by simpa using hroom) hok
    have heq := @feedFrom_eq _ _ _ [bs] h (by simpa using hroom)
    rw [List.flatten_singleton] at heq
    rcases run_section hbs hidle with ⟨-, q, hrun⟩ | ⟨n, p', hn, hrun, hend⟩ <;>
      rw [Parser.feed, hrun] at heq
    · have herr := (Prod.mk.inj heq).1
      rw [hok] at herr
      cases herr
    · rw [foldlM_nextLine] at hn
      have hn₀ := ((foldlM_nextLength _).mp hn).ne_zero hu hu₀
      have hcore := Decoder.core_eq (Prod.mk.inj heq).2.symm
      rw [hcore] at hs
      cases hend with
      | done => exact hn₀ rfl
      | body pos remaining fine heap quiet state =>
          have hquiet : p'.messages = d.messages := quiet.2
          rw [hquiet] at hs
          simp at hs
  · intro hcond body chunks hlen hc hcr hfits hok
    have heq := @feedFrom_eq _ _ _ chunks h (by rw [hc]; exact hfits)
    rw [hc, Parser.feed] at heq
    rcases run_section hbs hidle with ⟨-, q, hrun⟩ | ⟨n, p', hn, hrun, hend⟩
    · rw [Parser.run, Reader.run_append_error hrun] at heq
      have herr := (Prod.mk.inj heq).1
      rw [hok] at herr
      cases herr
    · rw [foldlM_nextLine] at hn
      have hann := (foldlM_nextLength _).mp hn
      have hvn := hann.eq ht hval (hcond ⟨n, hann⟩)
      subst hvn
      obtain ⟨q, s, hbody, hm, hblock, hl⟩ := run_ended hend hcb hlen hcr
      rw [Parser.run, Reader.run_append_ok hrun, ← Parser.run, hbody] at heq
      have hcore := Decoder.core_eq (Prod.mk.inj heq).2.symm
      refine ⟨s, ?_, hblock, hl⟩
      rw [hcore]
      exact hm

end

/-- **The value of a line.**  `parse_header_line` reads a length text as it should, unless it takes
a number with a sign or out of range; and the body collected is that long, unless the line says 0
and another line of an accepted section does not. -/
theorem length_value {line : List UInt8} (hl : IsLength line) (c : Core) :
    (ReadsNumeral c line ↔ (∃ v, Numeral (line.drop 15) v) ∨
      ∀ z, number (line.drop 15) = some z → c.remainingBody ≠ 0 ∧ c.remainingBody ≠ ulong z) ∧
    ∀ (ls : List (Call × Except Errno Unit)) (d : Decoder) (bs : List UInt8)
      (raws : List (List UInt8)) (v : Nat),
      decoderLts.Run (Decoder.fresh true) ls d → d.Between → headerLines bs = some raws →
      d.ring.contents.length + bs.length ≤ ptrdiffMax → line.drop 15 ∈ lengths raws →
      Numeral (line.drop 15) v →
      (CollectsBody d bs v ↔
        (Compatible (lengths raws) → v ≠ 0 ∨ ∀ u ∈ lengths raws, number u = some 0)) :=
  ⟨reads_numeral hl, fun _ _ _ _ _ h hb hbs hroom ht hv => collects_body h hb hbs hroom ht hv⟩

/-- A line as it should be, and the section it makes. -/
theorem length_value_five :
    ReadsNumeral (Decoder.fresh true).toCore (str "Content-Length: 5") ∧
      CollectsBody (Decoder.fresh true) (str "Content-Length: 5\n\n") 5 := by
  have hl : IsLength (str "Content-Length: 5") := by decide
  obtain ⟨hline, hbody⟩ := length_value hl (Decoder.fresh true).toCore
  have hnum : Numeral (str " 5") 5 :=
    ⟨⟨[SP], [53], rfl, by simp [isSpace], by decide, by simp [isDigit], by decide⟩, by decide⟩
  refine ⟨hline.mpr (Or.inl ⟨5, hnum⟩), ?_⟩
  refine (hbody [] (Decoder.fresh true) _ [str "Content-Length: 5\n"] 5 (.nil _) (Or.inl rfl)
    (by decide) (by decide) (by decide) hnum).mpr fun _ => Or.inl (by decide)

/-- A line with a sign. -/
theorem length_value_sign :
    ¬ ∀ (c : Core) (line : List UInt8), IsLength line → ReadsNumeral c line := by
  intro hall
  obtain ⟨hok, -⟩ := hall (Decoder.fresh true).toCore (str "content-length: -1") (by decide)
  obtain ⟨v, hv⟩ := hok (by decide)
  have hnum := hv.number_eq
  have hneg : number ((str "content-length: -1").drop 15) = some (-1) := by decide
  rw [hneg] at hnum
  have hz : (-1 : Int) = v := Option.some.inj hnum
  omega

end OpenWfd.Rtsp
