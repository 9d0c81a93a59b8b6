import OpenWfd.Ie.Bounded
import OpenWfd.Ie.Rounds

/-!
# Ie — Safety

Whatever the buffer holds, `print_ie` stays in its memory, and ends.  `Bounded.lean` has a result
where every access lies inside, so this is to say that it has one, and it is the one of
`Definitions.lean` (`printIe_safe`).

Between two rounds a payload is pending, or none is (`Safe`).  Where one is, `c` and the `sl` bytes
to come lie in the collection buffer, which is as large as the header of its subelement says
(`Pending`).  `collect` is all that fills the buffer, so `collect_bounded` is where the three
counters meet.
-/

namespace OpenWfd.Ie

/-! ### Fields -/

theorem be16_take (x : List UInt8) : be16 (x.take 2) = be16 x := by
  rcases x with _ | ⟨_, _ | _⟩ <;> rfl

theorem be32_take {n : Nat} (hn : 4 ≤ n) (x : List UInt8) : be32 (x.take n) = be32 x := by
  obtain ⟨n, rfl⟩ := Nat.exists_eq_add_of_le' hn
  rcases x with _ | ⟨_, _ | ⟨_, _ | ⟨_, _ | _⟩⟩⟩ <;> rfl

section

variable {buf : List UInt8} {off : Nat}

theorem u8At_of_lt (h : off < buf.length) :
    Bounded.u8At buf off = some ((buf.drop off).headD 0) := by
  rw [Bounded.u8At, List.headD_eq_head?_getD, List.head?_drop, List.getElem?_eq_getElem h]
  rfl

theorem be16At_of_le (h : off + 2 ≤ buf.length) :
    Bounded.be16At buf off = some (be16 (buf.drop off)) := by
  rw [Bounded.be16At, load_of_le h, Option.map_some, be16_take]

theorem be32At_of_le (h : off + 4 ≤ buf.length) :
    Bounded.be32At buf off = some (be32 (buf.drop off)) := by
  rw [Bounded.be32At, load_of_le h, Option.map_some, be32_take le_rfl]

end

/-! ### What is left of an element -/

/-- The subelement header at this offset. -/
def headerAt (buf : List UInt8) (off : Nat) : IeSub :=
  ⟨(buf.drop off).headD 0, be16 (buf.drop (off + 1))⟩

/-- The `l` bytes at the offset `h` are there, and they are the first of `x`. -/
structure View (buf : List UInt8) (l h : Nat) (x : List UInt8) : Prop where
  fits : h + l ≤ buf.length
  same : x.take l = (buf.drop h).take l

namespace View

variable {buf x : List UInt8} {l h n : Nat}

theorem take (v : View buf l h x) (hn : n ≤ l) : x.take n = (buf.drop h).take n := by
  have hsame := congrArg (List.take n) v.same
  rwa [List.take_take, List.take_take, Nat.min_eq_left hn] at hsame

theorem load (v : View buf l h x) (hn : n ≤ l) : OpenWfd.load buf h n = some (x.take n) := by
  have hfits : h + n ≤ buf.length := le_trans (Nat.add_le_add_left hn h) v.fits
  rw [load_of_le hfits, v.take hn]

theorem length_take (v : View buf l h x) (hn : n ≤ l) : (x.take n).length = n := by
  have hfits := v.fits
  rw [v.take hn, List.length_take, List.length_drop]
  omega

theorem skip (v : View buf l h x) (hn : n ≤ l) : View buf (l - n) (h + n) (x.drop n) := by
  refine ⟨?_, ?_⟩
  · have hfits := v.fits
    omega
  · have hsame := congrArg (List.drop n) v.same
    rwa [List.drop_take, List.drop_take, List.drop_drop] at hsame

theorem cut (v : View buf l h x) (hn : n ≤ l) : View buf n h (x.take n) := by
  refine ⟨le_trans (Nat.add_le_add_left hn h) v.fits, ?_⟩
  rw [List.take_take, Nat.min_self, v.take hn]

/-- Nothing is left. -/
theorem done (v : View buf l h x) : View buf 0 h x :=
  ⟨le_trans (Nat.add_le_add_left (Nat.zero_le l) h) v.fits, rfl⟩

theorem header (v : View buf l h x) (hl : 3 ≤ l) :
    (⟨x.headD 0, be16 (x.drop 1)⟩ : IeSub) = headerAt buf h := by
  have hid : x.headD 0 = (buf.drop h).headD 0 := by
    have hone := congrArg (List.headD · 0) (v.take (show 1 ≤ l by omega))
    simpa [List.head?_take] using hone
  have hlength : be16 (x.drop 1) = be16 (buf.drop (h + 1)) := by
    have hthree := congrArg (List.drop 1) (v.take hl)
    rw [List.drop_take, List.drop_take, List.drop_drop] at hthree
    rw [← be16_take (x.drop 1), hthree, be16_take]
  rw [hid, hlength, headerAt]

end View

/-! ### The indentation -/

section

variable (o : Out) (text : String)

@[simp] theorem Out.indent_line : (o.line text).indent = o.indent := rfl

@[simp] theorem Out.indent_subDevInfo (h : IeSub) (p : List UInt8) :
    (o.subDevInfo h p).indent = o.indent := by
  unfold Out.subDevInfo
  split_ifs <;> rfl

@[simp] theorem Out.indent_sub (h : IeSub) (data : List UInt8) :
    (o.sub h data).indent = o.indent := by
  unfold Out.sub
  dsimp only
  split_ifs <;> simp

end

/-! ### Between two rounds -/

/-- The locals without the memory they point into. -/
def Bounded.Locals.model (buf : List UInt8) (s : Bounded.Locals) : Ie.Locals :=
  ⟨s.out, s.heap, s.sub.map (headerAt buf), s.col, s.c, s.sl⟩

/-- The payload of a subelement is pending in the collection buffer `b`. -/
structure Pending (buf : List UInt8) (ids : List Nat) (s : Bounded.Locals) (b : Block) : Prop where
  holds : s.heap.Holds (b.id :: ids)
  room : s.c + s.sl ≤ b.bytes.length
  sub : ∃ off, s.sub = some off ∧ off + 3 ≤ buf.length ∧ b.bytes.length = (headerAt buf off).length

/-- The indentation is `k`, and `ids` are the live blocks beside the collection buffer. -/
structure Safe (buf : List UInt8) (ids : List Nat) (k : Nat) (s : Bounded.Locals) : Prop where
  indent : s.out.indent = k
  idle : s.col = none → s.heap.Holds ids
  pending : ∀ b, s.col = some b → Pending buf ids s b

section

variable {buf x : List UInt8} {ids : List Nat} {k l h : Nat} {s : Bounded.Locals} {b : Block}

theorem Pending.printed (hp : Pending buf ids s b) (out : Out) : Pending buf ids { s with out } b :=
  ⟨hp.holds, hp.room, hp.sub⟩

/-- Printing touches the indentation only. -/
theorem Safe.printed (hs : Safe buf ids k s) {k' : Nat} {out : Out} (ho : out.indent = k') :
    Safe buf ids k' { s with out } :=
  ⟨ho, hs.idle, fun b hb => (hs.pending b hb).printed out⟩

theorem Safe.line (hs : Safe buf ids k s) (text : String) : Safe buf ids k (s.line text) :=
  hs.printed hs.indent

theorem Safe.err (hs : Safe buf ids k s) (text : String) : Safe buf ids k (s.err text) :=
  hs.printed hs.indent

theorem Safe.indentIn (hs : Safe buf ids k s) : Safe buf ids (k + 1) s.indentIn :=
  hs.printed (congrArg (· + 1) hs.indent)

theorem Safe.indentOut (hs : Safe buf ids (k + 1) s) : Safe buf ids k s.indentOut :=
  hs.printed (congrArg (· - 1) hs.indent)

theorem Pending.safe (hp : Pending buf ids s b) (hcol : s.col = some b) (hk : s.out.indent = k) :
    Safe buf ids k s := by
  refine ⟨hk, ?_, ?_⟩
  · intro hnone
    rw [hcol] at hnone
    cases hnone
  · intro b' hb'
    rw [hcol] at hb'
    cases hb'
    exact hp

/-- There is no collection buffer. -/
theorem Safe.of_none (hk : s.out.indent = k) (hcol : s.col = none) (hh : s.heap.Holds ids) :
    Safe buf ids k s := by
  refine ⟨hk, fun _ => hh, ?_⟩
  intro b hb
  rw [hcol] at hb
  cases hb

/-- A collection buffer for the payload of the subelement at `off`. -/
theorem Safe.malloc {off n : Nat} {heap : Heap} (hs : Safe buf ids k s) (hcol : s.col = none)
    (hm : s.heap.malloc n = (some b, heap)) (hn : n = (headerAt buf off).length)
    (hoff : off + 3 ≤ buf.length) (out : Out) (hk : out.indent = k) :
    Safe buf ids k ⟨out, heap, some off, some b, 0, n⟩ := by
  rcases Heap.malloc_spec (hs.idle hcol) hm with ⟨hnone, -⟩ | ⟨b', hb', hsize, hholds⟩
  · cases hnone
  · obtain rfl := Option.some.inj hb'
    refine Pending.safe (b := b) ⟨hholds, ?_, off, rfl, hoff, hsize.trans hn⟩ rfl hk
    rw [hsize, Nat.zero_add]

/-- **The collection buffer is freed**, if there is one. -/
theorem Safe.freeCol (hs : Safe buf ids k s) : s.freeCol.heap.Holds ids := by
  cases hcol : s.col with
  | none =>
      have hidle := hs.idle hcol
      rwa [← show s.freeCol.heap = s.heap by rw [Bounded.Locals.freeCol, hcol]; rfl] at hidle
  | some b =>
      have hfree : (s.heap.free (some b)).Holds ([] ++ ids) :=
        Heap.free_spec (hs.pending b hcol).holds
      rwa [List.nil_append, ← hcol] at hfree

theorem Safe.freed (hs : Safe buf ids k s) : Safe buf ids k s.freeCol := by
  refine ⟨hs.indent, fun _ => hs.freeCol, ?_⟩
  intro b hb
  cases hb

/-! ### Printing a subelement -/

theorem subDevInfo_bounded {off : Nat} (o : Out) (hp : s.heap.Holds (b.id :: ids))
    (hoff : off + 3 ≤ buf.length) (hlen : b.bytes.length = (headerAt buf off).length) :
    Bounded.subDevInfo buf o s.heap off b = some (o.subDevInfo (headerAt buf off) b.bytes) := by
  have hlength : Bounded.be16At buf (off + 1) = some (headerAt buf off).length := be16At_of_le hoff
  unfold Bounded.subDevInfo Out.subDevInfo
  rw [hlength]
  by_cases hsix : (headerAt buf off).length = 6
  · -- the buffer has all three fields
    rw [hsix] at hlen
    have hread : ∀ i, i + 2 ≤ 6 →
        ∃ field, s.heap.load b i 2 = some field ∧ be16 field = be16 (b.bytes.drop i) := by
      intro i hi
      exact ⟨_, hp.load_of_le (hlen ▸ hi), be16_take _⟩
    obtain ⟨devInfo, hdev, hdev'⟩ := hread 0 (by decide)
    obtain ⟨ctrlPort, hport, hport'⟩ := hread 2 (by decide)
    obtain ⟨maxThroughput, hmax, hmax'⟩ := hread 4 (by decide)
    simp [hsix, hdev, hdev', hport, hport', hmax, hmax']
  · simp [hsix]

theorem sub_bounded {off : Nat} (o : Out) (hp : s.heap.Holds (b.id :: ids))
    (hoff : off + 3 ≤ buf.length) (hlen : b.bytes.length = (headerAt buf off).length) :
    Bounded.sub buf o s.heap off b = some (o.sub (headerAt buf off) b.bytes) := by
  have hid : Bounded.u8At buf off = some (headerAt buf off).subelementId := u8At_of_lt (by omega)
  have hlength : Bounded.be16At buf (off + 1) = some (headerAt buf off).length := be16At_of_le hoff
  unfold Bounded.sub Out.sub
  rw [hid, hlength]
  simp only [Option.bind_eq_bind, Option.bind_some]
  by_cases hdev : (headerAt buf off).subelementId = SUB_DEV_INFO
  · rw [if_pos hdev, if_pos hdev]
    exact subDevInfo_bounded _ hp hoff hlen
  · rw [if_neg hdev, if_neg hdev]

/-! ### The payload -/

/-- A copy stays in what is left of the collection buffer. -/
theorem copy_bounded {n : Nat} (hp : Pending buf ids s b) (hcol : s.col = some b)
    (v : View buf l h x) (hn : n ≤ l) (hsl : n ≤ s.sl) :
    ∃ b', s.copy buf h n = some { s with col := some b' } ∧
      ({ s with col := some b' } : Bounded.Locals).model buf = (s.model buf).copy (x.take n) ∧
      Pending buf ids { s with col := some b' } b' := by
  have hfits : s.c + (x.take n).length ≤ b.bytes.length := by
    have hroom := hp.room
    rw [v.length_take hn]
    omega
  have hlen := memcpy_length hfits
  refine ⟨{ b with bytes := memcpy b.bytes s.c (x.take n) }, ?_, ?_, hp.holds, ?_, ?_⟩
  · simp [Bounded.Locals.copy, v.load hn, hcol, hp.holds.store_of_le hfits]
  · simp [Bounded.Locals.model, Locals.copy, hcol]
  · exact le_of_le_of_eq hp.room hlen.symm
  · obtain ⟨off, hsub, hoff, hsize⟩ := hp.sub
    exact ⟨off, hsub, hoff, hlen.trans hsize⟩

theorem printSub_bounded (hp : Pending buf ids s b) (hcol : s.col = some b)
    (hk : s.out.indent = k) :
    ∃ s', s.printSub buf = some s' ∧ s'.model buf = (s.model buf).printSub ∧ Safe buf ids k s' := by
  obtain ⟨off, hsub, hoff, hsize⟩ := hp.sub
  refine ⟨{ s with out := s.out.sub (headerAt buf off) b.bytes }, ?_, ?_, ?_⟩
  · simp [Bounded.Locals.printSub, hsub, hcol, sub_bounded s.out hp.holds hoff hsize]
  · simp [Bounded.Locals.model, Locals.printSub, hsub, hcol]
  · exact (hp.safe hcol hk).printed ((Out.indent_sub _ _ _).trans hk)

/-- **The payload**, as far as the element has it. -/
theorem collect_bounded (hs : Safe buf ids k s) (hcol : s.col = some b) (v : View buf l h x) :
    ∃ l' h' x' s', Bounded.collect buf l h s = some (l', h', s') ∧
      collect l x (s.model buf) = (l', x', s'.model buf) ∧ View buf l' h' x' ∧
      Safe buf ids k s' := by
  have hp := hs.pending b hcol
  by_cases hle : s.sl ≤ l
  · -- the rest is copied, printed and freed
    obtain ⟨b', hcopy, hmodel, hp'⟩ := copy_bounded hp hcol v hle le_rfl
    obtain ⟨s', hprint, hmodel', hs'⟩ := printSub_bounded (hp'.printed s.out.indentIn) rfl
      (congrArg (· + 1) hs.indent)
    refine ⟨l - s.sl, h + s.sl, x.drop s.sl, s'.indentOut.freeCol, ?_, ?_, v.skip hle,
      hs'.indentOut.freed⟩
    · have hprint' : ({ s with col := some b' } : Bounded.Locals).indentIn.printSub buf = some s' :=
        hprint
      simp [Bounded.collect, hle, hcopy, hprint']
    · have hcollect : collect l x (s.model buf) = (l - s.sl, x.drop s.sl,
          ((s.model buf).copy (x.take s.sl)).indentIn.printSub.indentOut.freeCol) := if_pos hle
      rw [hcollect, ← hmodel]
      exact congrArg (fun m : Locals => (l - s.sl, x.drop s.sl, m.indentOut.freeCol)) hmodel'.symm
  · -- a part of it is copied, and `sl` has the rest
    let text := "MULTI IE sub-element; delay parsing to next IE"
    have hlt : l < s.sl := Nat.lt_of_not_le hle
    obtain ⟨b', hcopy, hmodel, hp'⟩ :=
      copy_bounded (s := s.line text) (hp.printed _) hcol v le_rfl hlt.le
    let s' : Bounded.Locals := { s.line text with col := some b', sl := s.sl - l, c := s.c + 0 }
    have hpart : Pending buf ids s' b' :=
      ⟨hp'.holds, le_trans (Nat.add_le_add_left (Nat.sub_le _ _) _) hp'.room, hp'.sub⟩
    refine ⟨0, h, x, s', ?_, ?_, v.done, hpart.safe rfl hs.indent⟩
    · rw [Bounded.collect, if_neg hle]
      dsimp only
      rw [hcopy]
      rfl
    · have hcollect : collect l x (s.model buf) = (0, x, { ((s.model buf).line text).copy (x.take l)
          with sl := s.sl - l, c := s.c + 0 }) := if_neg hle
      rw [hcollect]
      exact congrArg (fun m : Locals => (0, x, { m with sl := s.sl - l, c := s.c + 0 })) hmodel.symm

end

/-! ### The inner loop -/

/-- The two ends of a round agree. -/
inductive Ends (buf : List UInt8) (ids : List Nat) (k : Nat) : Bounded.Round → Round → Prop where
  | leave {s : Bounded.Locals} (hs : Safe buf ids (k + 1) s) : Ends buf ids k (.leave s)
      (.leave (s.model buf))
  | error {s : Bounded.Locals} (hs : Safe buf ids k s) : Ends buf ids k (.error s)
      (.error (s.model buf))
  | next {l h : Nat} {x : List UInt8} {s : Bounded.Locals} (v : View buf l h x)
    (hs : Safe buf ids (k + 1) s) : Ends buf ids k (.next l h s) (.next l x (s.model buf))

section

variable {buf x : List UInt8} {ids : List Nat} {k l h : Nat} {s : Bounded.Locals}

theorem header_bounded (hs : Safe buf ids (k + 1) s) (hcol : s.col = none) (v : View buf l h x) :
    ∃ r, Bounded.header buf l h s = some r ∧ Ends buf ids k r (header l x (s.model buf)) := by
  unfold Bounded.header header
  by_cases hl : l < 3
  · rw [if_pos hl, if_pos hl]
    exact ⟨_, rfl, .error (hs.err _).indentOut⟩
  · rw [if_neg hl, if_neg hl]
    have hthree := Nat.le_of_not_lt hl
    have hfits : h + 3 ≤ buf.length := le_trans (Nat.add_le_add_left hthree h) v.fits
    have hid : Bounded.u8At buf h = some (headerAt buf h).subelementId := u8At_of_lt (by omega)
    have hlength : Bounded.be16At buf (h + 1) = some (headerAt buf h).length := be16At_of_le hfits
    have hid' : x.headD 0 = (headerAt buf h).subelementId :=
      congrArg IeSub.subelementId (v.header hthree)
    have hlength' : be16 (x.drop 1) = (headerAt buf h).length :=
      congrArg IeSub.length (v.header hthree)
    dsimp only [Bounded.Locals.line, Locals.line]
    rw [hlength, hid', hlength']
    simp only [hid, Option.bind_eq_bind, Option.bind_some]
    let text := "IE SUBELEMENT(id: " ++ dec (headerAt buf h).subelementId.toNat ++ " len: " ++
      dec (headerAt buf h).length ++ "):"
    let s₁ : Bounded.Locals :=
      { s with out := s.out.line text, sub := some h, sl := (headerAt buf h).length }
    have h₁ : Safe buf ids (k + 1) s₁ := Safe.of_none hs.indent hcol (hs.idle hcol)
    by_cases hzero : (headerAt buf h).length = 0
    · rw [if_pos hzero, if_pos hzero]
      exact ⟨_, rfl, .next (v.skip hthree) h₁⟩
    · rw [if_neg hzero, if_neg hzero, show (s.model buf).heap = s.heap from rfl]
      rcases hm : s.heap.malloc (headerAt buf h).length with ⟨_ | b, heap⟩
      · rcases Heap.malloc_spec (hs.idle hcol) hm with ⟨-, hheap⟩ | ⟨b, hb, -⟩
        · have h₂ : Safe buf ids (k + 1) { s₁ with heap, col := none } :=
            Safe.of_none hs.indent rfl hheap
          exact ⟨_, rfl, .error (h₂.err "out of memory").indentOut⟩
        · cases hb
      · let s₂ : Bounded.Locals :=
          ⟨s.out.line text, heap, some h, some b, 0, (headerAt buf h).length⟩
        have h₂ : Safe buf ids (k + 1) s₂ := h₁.malloc hcol hm rfl hfits _ hs.indent
        obtain ⟨l', h', x', s', hc, hc', v', hs'⟩ := collect_bounded h₂ rfl (v.skip hthree)
        refine ⟨.next l' h' s', ?_, ?_⟩
        · show (Bounded.collect _ _ _ _).bind _ = _
          rw [hc]
          rfl
        · dsimp only
          generalize hres : collect (l - 3) (x.drop 3) _ = res
          obtain rfl : res = (l', x', s'.model buf) := hres.symm.trans hc'
          exact .next v' hs'

theorem subelement_bounded (hs : Safe buf ids (k + 1) s) (v : View buf l h x) :
    ∃ r, Bounded.subelement buf l h s = some r ∧
    Ends buf ids k r (subelement l x (s.model buf)) := by
  unfold Bounded.subelement subelement
  rw [show (s.model buf).col = s.col from rfl]
  cases hcol : s.col with
  | none =>
      rw [if_neg (by simp), if_neg (by simp)]
      exact header_bounded hs hcol v
  | some b =>
      rw [if_pos Option.isSome_some, if_pos Option.isSome_some]
      obtain ⟨l', h', x', s', hc, hc', v', hs'⟩ := collect_bounded hs hcol v
      rw [hc, hc']
      simp only [Option.bind_eq_bind, Option.bind_some]
      rw [show (s'.model buf).col = s'.col from rfl]
      by_cases hleave : s'.col.isSome ∨ l' = 0
      · rw [if_pos hleave, if_pos hleave]
        exact ⟨_, rfl, .leave hs'⟩
      · rw [if_neg hleave, if_neg hleave]
        refine header_bounded hs' ?_ v'
        rw [not_or] at hleave
        exact Option.not_isSome_iff_eq_none.mp hleave.1

/-- The loops end alike; the indentation is `k` where they reach their end, and `k'` at an error. -/
inductive After (buf : List UInt8) (ids : List Nat) (k k' : Nat) :
    Except Bounded.Locals Bounded.Locals → Except Locals Locals → Prop where
  | ok {s : Bounded.Locals} (hs : Safe buf ids k s) : After buf ids k k' (.ok s) (.ok (s.model buf))
  | error {s : Bounded.Locals} (hs : Safe buf ids k' s) :
    After buf ids k k' (.error s) (.error (s.model buf))

/-- **The loop over one element** ends, in fewer rounds than it has bytes. -/
theorem subelements_bounded {rounds : Nat} (hl : l < rounds) (hs : Safe buf ids (k + 1) s)
    (v : View buf l h x) :
    ∃ r, Bounded.subelements buf rounds l h s = some r ∧
      After buf ids (k + 1) k r (loop l x (s.model buf)) := by
  induction rounds generalizing l h x s with
  | zero => exact absurd hl (Nat.not_lt_zero l)
  | succ rounds ih =>
      rw [Bounded.subelements]
      by_cases hzero : l = 0
      · subst hzero
        exact ⟨_, rfl, .ok hs⟩
      · rw [if_neg hzero, loop_round hzero]
        obtain ⟨r, hr, hends⟩ := subelement_bounded hs v
        rw [hr]
        generalize hround : subelement l x (s.model buf) = round at hends
        cases hends with
        | leave hs' => exact ⟨_, rfl, .ok hs'⟩
        | error hs' => exact ⟨_, rfl, .error hs'⟩
        | next v' hs' =>
            have hlt := subelement_shrinks hround
            exact ih (by omega) hs' v'

/-! ### The outer loop -/

/-- The data of an element, and what comes after it. -/
theorem data_bounded {inner : Nat}
    {rest : Bounded.Locals → Option (Except Bounded.Locals Bounded.Locals)}
    {rest' : Locals → Except Locals Locals} (hs : Safe buf ids (k + 1) s) (v : View buf l h x)
    (hl : l < inner)
    (hrest : ∀ s, Safe buf ids k s → ∃ r, rest s = some r ∧
      After buf ids k k r (rest' (s.model buf))) :
    ∃ r,
      ((Bounded.subelements buf inner l h s).bind fun e =>
        match e with
        | .error s => some (.error s)
        | .ok s    => rest s.indentOut) = some r ∧
      After buf ids k k r
        (match subelements l l x (s.model buf) with
          | .error s => .error s
          | .ok s    => rest' s.indentOut) := by
  obtain ⟨e, he, hafter⟩ := subelements_bounded hl hs v
  rw [he, Option.bind_some]
  unfold loop at hafter
  generalize subelements l l x (s.model buf) = e' at hafter
  cases hafter with
  | ok hs'    => exact hrest _ hs'.indentOut
  | error hs' => exact ⟨_, rfl, .error hs'⟩

/-- The header of an element, and what is behind it. -/
theorem drop_header {off : Nat} {elementId length : UInt8} {data : List UInt8}
    (h : buf.drop off = elementId :: length :: data) :
    Bounded.u8At buf off = some elementId ∧ Bounded.u8At buf (off + 1) = some length ∧
      buf.drop (off + 2) = data := by
  refine ⟨?_, ?_, ?_⟩
  · rw [Bounded.u8At, ← List.head?_drop, h]
    rfl
  · rw [Bounded.u8At, ← List.head?_drop, ← List.drop_drop, h]
    rfl
  · rw [← List.drop_drop, h]
    rfl

/-- **One element.** -/
theorem element_bounded {inner rounds fuel off : Nat} {elementId length : UInt8} {data : List UInt8}
    (hdata : buf.drop off = elementId :: length :: data) (hlen : off + 2 + data.length = buf.length)
    (hi : data.length < inner) (hs : Safe buf ids k s)
    (hrest : 4 ≤ length.toNat → length.toNat ≤ data.length → ∀ s, Safe buf ids k s →
      ∃ r, Bounded.elements buf inner rounds (off + 2 + length.toNat)
        (data.length - length.toNat) s = some r ∧
        After buf ids k k r (elements fuel (data.drop length.toNat) (s.model buf))) :
    ∃ r, Bounded.elements buf inner (rounds + 1) off (data.length + 2) s = some r ∧
      After buf ids k k r (elements (fuel + 1) (elementId :: length :: data) (s.model buf)) := by
  obtain ⟨hid, hlength, hbehind⟩ := drop_header hdata
  have hbig : ¬ data.length + 2 < 2 := by omega
  have h₁ (text : String) : Safe buf ids (k + 1)
      (((s.line "IE BLOCK:").indentIn.line text).line ("length: " ++ dec length.toNat)) :=
    ((hs.line _).indentIn.line text).line _
  rw [Bounded.elements, elements, if_neg (Nat.succ_ne_zero _), if_neg hbig]
  simp only [hid, hlength, Option.bind_eq_bind, Option.bind_some, Nat.add_sub_cancel]
  by_cases hwfd : elementId = WFD_ID
  · simp only [hwfd, if_true, ne_eq, not_true, if_false]
    by_cases hfits : length.toNat > data.length
    · rw [if_pos hfits, if_pos hfits]
      exact ⟨_, rfl, .error ((h₁ _).err _).indentOut⟩
    · rw [if_neg hfits, if_neg hfits]
      have hle := Nat.le_of_not_lt hfits
      by_cases hfour : length.toNat < 4
      · rw [if_pos hfour, if_pos hfour]
        exact ⟨_, rfl, .error ((h₁ _).err _).indentOut⟩
      · rw [if_neg hfour, if_neg hfour]
        have hoff := Nat.le_of_not_lt hfour
        have hread : Bounded.be32At buf (off + 2) = some (be32 (data.take length.toNat)) := by
          rw [be32At_of_le (by omega), hbehind, be32_take hoff]
        rw [hread, Option.bind_some]
        by_cases houi : be32 (data.take length.toNat) = OUI_1_0
        · simp only [houi, not_true, if_false]
          have v : View buf data.length (off + 2) data := ⟨hlen.le, by rw [hbehind]⟩
          exact data_bounded ((h₁ _).line _) ((v.cut hle).skip hoff) (by omega) (hrest hoff hle)
        · simp only [houi, not_false_iff, if_true]
          exact ⟨_, rfl, .error (((h₁ _).line _).err _).indentOut⟩
  · simp only [hwfd, if_false, ne_eq, not_false_iff, if_true]
    by_cases hfits : length.toNat > data.length
    · rw [if_pos hfits, if_pos hfits]
      exact ⟨_, rfl, .error ((h₁ _).err _).indentOut⟩
    · rw [if_neg hfits, if_neg hfits]
      exact ⟨_, rfl, .error ((h₁ _).err _).indentOut⟩

/-- **The loop over the elements** ends, in fewer rounds than there are bytes. -/
theorem elements_bounded {rounds inner fuel off len : Nat} (hlen : off + len = buf.length)
    (hr : len < rounds) (hf : len ≤ fuel) (hi : len < inner) (hs : Safe buf ids k s) :
    ∃ r, Bounded.elements buf inner rounds off len s = some r ∧
      After buf ids k k r (elements fuel (buf.drop off) (s.model buf)) := by
  induction rounds generalizing fuel off len s with
  | zero => exact absurd hr (Nat.not_lt_zero len)
  | succ rounds ih =>
      have hsize : (buf.drop off).length = len := by
        rw [List.length_drop]
        omega
      match hdata : buf.drop off, fuel, hf with
      | [], fuel, _ =>
          obtain rfl : 0 = len := by rw [← hsize, hdata]; rfl
          cases fuel <;> exact ⟨_, rfl, .ok hs⟩
      | [_], fuel, hf =>
          obtain rfl : 1 = len := by rw [← hsize, hdata]; rfl
          obtain ⟨fuel, rfl⟩ := Nat.exists_eq_add_of_le' hf
          exact ⟨_, rfl, .error (hs.err _)⟩
      | elementId :: length :: data, fuel, hf =>
          obtain rfl : data.length + 2 = len := by rw [← hsize, hdata]; rfl
          obtain ⟨fuel, rfl⟩ := Nat.exists_eq_add_of_le' (le_trans (Nat.le_add_left 1 _) hf)
          refine element_bounded hdata (by omega) (by omega) hs ?_
          intro hoff hle s' hs'
          have hdrop : data.drop length.toNat = buf.drop (off + 2 + length.toNat) := by
            rw [← List.drop_drop, (drop_header hdata).2.2]
          rw [hdrop]
          exact ih (by omega) (by omega) (by omega) (by omega) hs'

end

/-! ### `print_ie` -/

theorem printIe_bounded {data : List UInt8} {rounds : Nat} (hr : data.length < rounds) (out : Out)
    {heap : Heap} {ids : List Nat} (hh : heap.Holds ids) :
    Bounded.printIe data rounds out heap = some (printIe data out heap) ∧
      (printIe data out heap).1.indent = out.indent ∧ (printIe data out heap).2.Holds ids := by
  by_cases hnil : data = []
  · subst hnil
    exact ⟨rfl, rfl, hh⟩
  · have hs₀ : Safe data ids (out.indent + 1) ⟨(out.line "IE:").indentIn, heap, none, none, 0, 0⟩ :=
      Safe.of_none rfl rfl hh
    obtain ⟨r, he, hafter⟩ := elements_bounded (Nat.zero_add _) hr le_rfl hr hs₀
    have hlen : data.length ≠ 0 := fun e => hnil (List.length_eq_zero_iff.mp e)
    have hend : ∀ s, Safe data ids (out.indent + 1) s →
        (s.freeCol.out.indentOut.line "").indent = out.indent ∧ s.freeCol.heap.Holds ids :=
      fun s hs => ⟨hs.freed.indentOut.indent, hs.freeCol⟩
    simp only [Bounded.printIe, if_neg hlen, printIe, if_neg hnil, he, Option.bind_eq_bind,
      Option.bind_some]
    unfold Bounded.Locals.model at hafter
    rw [List.drop_zero, Option.map_none] at hafter
    generalize elements data.length data ⟨(out.line "IE:").indentIn, heap, none, none, 0, 0⟩ =
      m at hafter ⊢
    cases hafter with
    | error hs => exact ⟨rfl, hend _ hs⟩
    | @ok s hs =>
        have hsame : (s.model data).col = s.col := rfl
        simp only [hsame]
        by_cases hcol : s.col.isSome
        · -- a payload is pending, and given up
          rw [if_pos hcol, if_pos hcol]
          exact ⟨rfl, hend (s.err _) (hs.err _)⟩
        · rw [if_neg hcol, if_neg hcol]
          exact ⟨rfl, hend _ hs⟩

/-- **`print_ie` is safe.**  On any data, whatever the allocator answers, every access lies in the
data or in the collection buffer, and the loops end; the indentation is what it was, and so are the
live blocks, with every `free` of a live one. -/
theorem printIe_safe (data : List UInt8) (out : Out) {heap : Heap} {ids : List Nat}
    (hh : heap.Holds ids) :
    (∀ rounds, data.length < rounds →
      Bounded.printIe data rounds out heap = some (printIe data out heap)) ∧
      (printIe data out heap).1.indent = out.indent ∧ (printIe data out heap).2.Holds ids :=
  ⟨fun _ hr => (printIe_bounded hr out hh).1, (printIe_bounded (Nat.lt_succ_self _) out hh).2⟩

/-- A payload that is not all there, and half a header behind it. -/
theorem printIe_safe_truncated :
    let data : List UInt8 := [0xdd, 8, 0x50, 0x6f, 0x9a, 0x0a, 0, 0, 6, 1, 0xdd]
    (Heap.fresh []).Holds [] ∧ data.length < 12 ∧
      Bounded.printIe data 12 ⟨0, []⟩ (.fresh []) = some (printIe data ⟨0, []⟩ (.fresh [])) ∧
      (printIe data ⟨0, []⟩ (.fresh [])).1.indent = 0 ∧
      (printIe data ⟨0, []⟩ (.fresh [])).2.Holds [] := by
  have hfresh := Heap.holds_fresh []
  have hsafe := printIe_safe [0xdd, 8, 0x50, 0x6f, 0x9a, 0x0a, 0, 0, 6, 1, 0xdd] ⟨0, []⟩ hfresh
  exact ⟨hfresh, by decide, hsafe.1 12 (by decide), hsafe.2⟩

end OpenWfd.Ie
