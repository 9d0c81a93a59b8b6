import Mathlib.Data.Fintype.Sum
import Mathlib.Tactic.DeriveFintype
import OpenWfd.Dhcp.Packet

/-!
# Dhcp — Options

`dhcp_get_option`, over every packet that can be received.  A field of options is what `Tlv.parse`
says it is (`walk_field`), and the walk goes on from one field to the next at its end byte, as the
overload bits say.  The fields it can still go to are finitely many, so it either returns within the
2048 rounds of the definition or never (`getOption_returns`); an overload option in `file` or
`sname` can send it round for ever.

* `getOption_found`: what it returns is the data of the first option of that code in a field that
  holds options.
* `getOption_independent`: the byte it may read behind a field does not matter.
* `getOption_total`: no overload option in `file` or `sname`, no endless loop; and a `file` that
  sends the walk to `file` again is one.
-/

namespace OpenWfd.Dhcp

open Tlv (Found Ending Spells)

/-! ### The fields in memory -/

variable {p : Packet} {behind : Nat → UInt8} {mem : Nat → UInt8} {code ov : UInt8}

theorem Packet.header_length (p : Packet) : p.header.length = 240 := by
  simp [Packet.header, p.chaddr.2, p.sname.2, p.file.2]

@[simp] theorem Packet.toBytes_length (p : Packet) : p.toBytes.length = 628 := by
  rw [Packet.toBytes, List.length_append, p.header_length, p.options.2]

@[simp] theorem Field.bytes_length (p : Packet) (f : Field) : (f.bytes p).length = f.size := by
  cases f
  · exact p.options.2
  · exact p.file.2
  · exact p.sname.2

theorem Packet.header_sname (p : Packet) :
    ∃ pre post, p.header = pre ++ (p.sname.1 ++ post) ∧ pre.length = 44 := by
  refine ⟨[p.op, p.htype, p.hlen, p.hops] ++ putBe32 p.xid ++ putBe16 p.secs ++ putBe16 p.flags ++
    putBe32 p.ciaddr ++ putBe32 p.yiaddr ++ putBe32 p.siaddrNip ++ putBe32 p.gatewayNip ++
    p.chaddr.1, p.file.1 ++ putBe32 p.cookie, ?_, ?_⟩
  · simp [Packet.header]
  · simp [p.chaddr.2]

theorem Packet.header_file (p : Packet) :
    ∃ pre post, p.header = pre ++ (p.file.1 ++ post) ∧ pre.length = 108 := by
  refine ⟨[p.op, p.htype, p.hlen, p.hops] ++ putBe32 p.xid ++ putBe16 p.secs ++ putBe16 p.flags ++
    putBe32 p.ciaddr ++ putBe32 p.yiaddr ++ putBe32 p.siaddrNip ++ putBe32 p.gatewayNip ++
    p.chaddr.1 ++ p.sname.1, putBe32 p.cookie, ?_, ?_⟩
  · simp [Packet.header]
  · simp [p.chaddr.2, p.sname.2]

/-- Where a field stands in the packet. -/
theorem Field.toBytes_eq (p : Packet) (f : Field) :
    ∃ pre post, p.toBytes = pre ++ (f.bytes p ++ post) ∧ pre.length = f.base := by
  cases f with
  | options => exact ⟨p.header, [], by simp [Packet.toBytes, Field.bytes], p.header_length⟩
  | file =>
      obtain ⟨pre, post, heq, hlen⟩ := p.header_file
      exact ⟨pre, post ++ p.options.1, by simp [Packet.toBytes, heq, Field.bytes], hlen⟩
  | sname =>
      obtain ⟨pre, post, heq, hlen⟩ := p.header_sname
      exact ⟨pre, post ++ p.options.1, by simp [Packet.toBytes, heq, Field.bytes], hlen⟩

/-- The memory around a packet spells its fields. -/
theorem spells_field (p : Packet) (behind : Nat → UInt8) (f : Field) :
    Spells (p.memory behind) f.base (f.bytes p) := by
  obtain ⟨pre, post, heq, hlen⟩ := f.toBytes_eq p
  intro i b hi
  have hlt : i < (f.bytes p).length := (List.getElem?_eq_some_iff.mp hi).1
  have hget : p.toBytes[f.base + i]? = some b := by
    rw [heq, ← hlen, List.getElem?_append_right (by omega), Nat.add_sub_cancel_left,
      List.getElem?_append_left hlt, hi]
  rw [Packet.memory, hget]

/-! ### One field -/

/-- The overload bits after these options. -/
def gather (mem : Nat → UInt8) (ov : UInt8) (os : List Found) : UInt8 :=
  os.foldl (fun ov o => if o.item.code = DHCP_OPTION_OVERLOAD then ov ||| mem (o.pos + 2)
    else ov) ov

/-- How the walk over a field ends: at the option's data, in a malformed option, or at the end
byte. -/
inductive FieldEnd where
  | found (a : Nat)
  | bad
  | fin (p : Nat) (overload : UInt8)
  deriving DecidableEq, Repr

/-- The walk over a field that holds these options. -/
def fieldEnd (mem : Nat → UInt8) (code ov : UInt8) (os : List Found) (e : Ending) : FieldEnd :=
  match os.find? (fun o => o.item.code == code) with
  | some o => .found (o.pos + 2)
  | none   =>
    match e with
    | .fin p              => .fin p (gather mem ov os)
    | .exhausted | .broken => .bad

theorem fieldEnd_cons_self {o : Found} {os : List Found} {e : Ending} (h : o.item.code = code) :
    fieldEnd mem code ov (o :: os) e = .found (o.pos + 2) := by
  simp [fieldEnd, h]

theorem fieldEnd_cons {o : Found} {os : List Found} {e : Ending} (h : o.item.code ≠ code) :
    fieldEnd mem code ov (o :: os) e =
      fieldEnd mem code (if o.item.code = DHCP_OPTION_OVERLOAD then ov ||| mem (o.pos + 2) else ov)
        os e := by
  simp [fieldEnd, h, gather]

/-- What `k` rounds do, if the field ends so; `last` is the address behind the field. -/
def Walks (mem : Nat → UInt8) (code : UInt8) (w : Walk) (k last : Nat) : FieldEnd → Prop
  | .found a  => ∀ n, Loop.iterate (Walk.body mem code) (n + k) w = some (some a)
  | .bad      => ∀ n, Loop.iterate (Walk.body mem code) (n + k) w = some none
  | .fin p ov =>
    ∀ n, Loop.iterate (Walk.body mem code) (n + k) w =
      Loop.iterate (Walk.body mem code) n ⟨p, last - p, ov⟩

theorem Walks.step {w w' : Walk} {k last : Nat} {e : FieldEnd}
    (h : Walk.body mem code w = .inl w') (hw : Walks mem code w' k last e) :
    Walks mem code w (k + 1) last e := by
  have hn : ∀ n, Loop.iterate (Walk.body mem code) (n + (k + 1)) w =
      Loop.iterate (Walk.body mem code) (n + k) w' := fun n => Loop.iterate_inl h
  cases e <;> intro n <;> rw [hn] <;> exact hw n

/-- **The walk over a field** ends as the options in it say, after a round for each of its bytes at
most. -/
theorem walk_field (code : UInt8) {pos : Nat} {bs : List UInt8} (h : Spells mem pos bs)
    (ov : UInt8) :
    ∃ k, k ≤ bs.length + 1 ∧
      Walks mem code ⟨pos, bs.length, ov⟩ k (pos + bs.length)
        (fieldEnd mem code ov (Tlv.parse DHCP_PADDING DHCP_END pos bs).1
          (Tlv.parse DHCP_PADDING DHCP_END pos bs).2) := by
  fun_induction Tlv.parse DHCP_PADDING DHCP_END pos bs generalizing ov with
  | case1 pos =>
      refine ⟨1, Nat.le_refl _, ?_⟩
      intro n
      exact Loop.iterate_inr (by simp [Walk.body])
  | case2 pos rest ih =>
      obtain ⟨k, hk, hw⟩ := ih h.tail ov
      refine ⟨k + 1, by rw [List.length_cons]; omega, ?_⟩
      refine @Walks.step mem code _ ⟨pos + 1, rest.length, ov⟩ _ _ _ ?_ ?_
      · simp only [Walk.body, h.head, List.length_cons]
        rw [if_neg (by omega), if_pos True.intro]
        simp
      · rwa [List.length_cons, show pos + (rest.length + 1) = pos + 1 + rest.length by omega]
  | case3 pos rest =>
      refine ⟨0, Nat.zero_le _, ?_⟩
      intro n
      simp [gather]
  | case4 pos c hp hf =>
      have hbad : Walk.body mem code ⟨pos, ([c] : List UInt8).length, ov⟩ =
          .inl ⟨pos, 1 - (2 + ((mem (pos + 1)).toNat : Int)), ov⟩ := by
        simp only [Walk.body, h.head, List.length_singleton, if_neg hp, if_neg hf]
        rw [if_neg (by omega), if_pos (by omega)]
        simp
      refine ⟨2, by simp, Walks.step hbad ?_⟩
      intro n
      exact Loop.iterate_inr (by rw [Walk.body, if_pos (by dsimp only; omega)])
  | case5 pos c hp hf l rest hl os e hparse ih =>
      rw [hparse] at ih
      have hlen : mem (pos + 1) = l := h.tail.head
      have hbody : Walk.body mem code ⟨pos, (c :: l :: rest).length, ov⟩ =
          if c = code then .inr (some (pos + 2))
          else .inl ⟨pos + (2 + l.toNat), (rest.drop l.toNat).length,
            if c = DHCP_OPTION_OVERLOAD then ov ||| mem (pos + 2) else ov⟩ := by
        simp only [Walk.body, h.head, hlen, List.length_cons, if_neg hp, if_neg hf]
        rw [if_neg (by omega), if_neg (by omega)]
        have hrem : ((rest.length + 1 + 1 : Nat) : Int) - ((2 + l.toNat : Nat) : Int) =
            ((rest.drop l.toNat).length : Nat) := by
          rw [List.length_drop]
          omega
        simp only [hrem]
      by_cases hc : c = code
      · rw [if_pos hc] at hbody
        refine ⟨1, by simp, ?_⟩
        rw [fieldEnd_cons_self hc]
        intro n
        exact Loop.iterate_inr hbody
      · rw [if_neg hc] at hbody
        have hspell : Spells mem (pos + 2 + l.toNat) (rest.drop l.toNat) :=
          h.tail.tail.drop l.toNat
        obtain ⟨k, hk, hw⟩ :=
          ih hspell (if c = DHCP_OPTION_OVERLOAD then ov ||| mem (pos + 2) else ov)
        rw [List.length_drop] at hk
        refine ⟨k + 1, by simp only [List.length_cons]; omega, ?_⟩
        rw [fieldEnd_cons hc]
        refine Walks.step hbody ?_
        rw [show pos + (c :: l :: rest).length = pos + 2 + l.toNat + (rest.drop l.toNat).length by
          simp only [List.length_cons, List.length_drop]; omega, ← Nat.add_assoc]
        exact hw
  | case6 pos c hp hf l rest hl =>
      have hlen : mem (pos + 1) = l := h.tail.head
      have hbad : Walk.body mem code ⟨pos, (c :: l :: rest).length, ov⟩ =
          .inl ⟨pos, ((c :: l :: rest).length : Int) - (2 + l.toNat : Nat), ov⟩ := by
        simp only [Walk.body, h.head, hlen, List.length_cons, if_neg hp, if_neg hf]
        rw [if_neg (by omega), if_pos (by omega)]
      refine ⟨2, by simp, Walks.step hbad ?_⟩
      intro n
      exact Loop.iterate_inr (by
        rw [Walk.body, if_pos]
        simp only [List.length_cons]
        omega)

/-! ### From field to field -/

/-- Whether an overload bit is set. -/
def bit (f ov : UInt8) : Bool := ov &&& f ≠ 0

theorem bit_or (f a b : UInt8) : bit f (a ||| b) = (bit f a || bit f b) := by
  have hor : (a ||| b) &&& f = (a &&& f) ||| (b &&& f) :=
    UInt8.toBitVec_inj.mp BitVec.and_or_distrib_right
  simp only [bit, hor, ne_eq, UInt8.or_eq_zero_iff, not_and_or, Bool.decide_or]

theorem bit_clear (f a : UInt8) : bit f (a &&& ~~~f) = false := by
  have hclear : a &&& ~~~f &&& f = 0 := by
    rw [UInt8.and_assoc, UInt8.and_comm (~~~f), UInt8.and_not_self, UInt8.and_zero]
  simp [bit, hclear]

theorem bit_sname_clear_file (a : UInt8) :
    bit SNAME_FIELD (a &&& ~~~FILE_FIELD) = bit SNAME_FIELD a := by
  have hkeep : a &&& ~~~FILE_FIELD &&& SNAME_FIELD = a &&& SNAME_FIELD := by
    rw [UInt8.and_assoc]
    rfl
  simp [bit, hkeep]

theorem bit_file_clear_sname (a : UInt8) :
    bit FILE_FIELD (a &&& ~~~SNAME_FIELD) = bit FILE_FIELD a := by
  have hkeep : a &&& ~~~SNAME_FIELD &&& FILE_FIELD = a &&& FILE_FIELD := by
    rw [UInt8.and_assoc]
    rfl
  simp [bit, hkeep]

theorem gather_eq (mem : Nat → UInt8) (ov : UInt8) (os : List Found) :
    gather mem ov os = ov ||| gather mem 0 os := by
  induction os using List.reverseRecOn with
  | nil => simp [gather]
  | append_singleton os o ih =>
      simp only [gather, List.foldl_append, List.foldl_cons, List.foldl_nil] at ih ⊢
      split_ifs
      · rw [ih, UInt8.or_assoc]
      · exact ih

/-- The overload bits a field starts with are only added to. -/
theorem fieldEnd_overload (mem : Nat → UInt8) (code ov : UInt8) (os : List Found) (e : Ending) :
    fieldEnd mem code ov os e =
      match fieldEnd mem code 0 os e with
      | .found a => .found a
      | .bad     => .bad
      | .fin p b => .fin p (ov ||| b) := by
  unfold fieldEnd
  split
  · rfl
  · cases e with
    | fin p => rw [gather_eq]
    | exhausted => rfl
    | broken => rfl

/-- A field that ends at its end byte has one there. -/
theorem fieldEnd_fin {pos p : Nat} {bs : List UInt8} {b : UInt8} (h : Spells mem pos bs)
    (he : fieldEnd mem code ov (Tlv.parse DHCP_PADDING DHCP_END pos bs).1
      (Tlv.parse DHCP_PADDING DHCP_END pos bs).2 = .fin p b) :
    mem p = DHCP_END ∧ p < pos + bs.length := by
  rcases hend : (Tlv.parse DHCP_PADDING DHCP_END pos bs).2 with q | _ | _ <;>
    rw [hend, fieldEnd] at he <;> (split at he; cases he) <;> cases he
  obtain ⟨hle, hlt, hget⟩ := Tlv.parse_ending hend
  refine ⟨?_, hlt⟩
  rw [← h _ _ hget, show pos + (p - pos) = p by omega]

/-- The fields the walk stops at; in `file`, whether it is to go on to `sname`. -/
inductive Stop where
  | options
  | file (pending : Bool)
  | sname
  deriving DecidableEq, Fintype

/-- The field of a stop. -/
def Stop.field : Stop → Field
  | .options => .options
  | .file _  => .file
  | .sname   => .sname

/-- What is still to be visited at a stop. -/
def Stop.pending : Stop → Bool
  | .file pending     => pending
  | .options | .sname => false

/-- One field of the walk over packet `p`. -/
def Stop.body (mem : Nat → UInt8) (p : Packet) (code : UInt8) (s : Stop) : Stop ⊕ Option Nat :=
  match fieldEnd mem code 0 (Tlv.parse DHCP_PADDING DHCP_END s.field.base (s.field.bytes p)).1
      (Tlv.parse DHCP_PADDING DHCP_END s.field.base (s.field.bytes p)).2 with
  | .found a  => .inr (some a)
  | .bad      => .inr none
  | .fin _ ov =>
    if bit FILE_FIELD ov then .inl (.file (s.pending || bit SNAME_FIELD ov))
    else if s.pending || bit SNAME_FIELD ov then .inl .sname
    else .inr none

/-- The walk is at the start of this stop's field. -/
def AtStop (w : Walk) (s : Stop) : Prop :=
  ∃ ov, w = Walk.start s.field ov ∧ bit FILE_FIELD ov = false ∧ bit SNAME_FIELD ov = s.pending

theorem atStop_options : AtStop (Walk.start .options 0) .options := ⟨0, rfl, rfl, rfl⟩

/-- What the walk does at an end byte. -/
theorem body_fin (code ov : UInt8) {p rem : Nat} (h : mem p = DHCP_END) (hrem : 0 < rem) :
    Walk.body mem code ⟨p, rem, ov⟩ =
      if bit FILE_FIELD ov then .inl (Walk.start .file (ov &&& ~~~FILE_FIELD))
      else if bit SNAME_FIELD ov then .inl (Walk.start .sname (ov &&& ~~~SNAME_FIELD))
      else .inr none := by
  simp only [Walk.body, h, bit, decide_eq_true_iff]
  rw [if_neg (by omega), if_neg (by decide), if_pos True.intro]

theorem Stop.size_le (s : Stop) : s.field.size ≤ 388 := by
  cases s <;> simp [Stop.field, Field.size]

theorem walk_refines (p : Packet) (behind : Nat → UInt8) (code : UInt8) :
    Loop.Refines (Walk.body (p.memory behind) code)
      (Stop.body (p.memory behind) p code) AtStop 512 := by
  rintro w s ⟨ov, rfl, hfile, hsname⟩
  have hspell : Spells (p.memory behind) s.field.base (s.field.bytes p) :=
    spells_field p behind s.field
  have hsize := s.size_le
  obtain ⟨k, hk, hw⟩ := walk_field code hspell ov
  rw [fieldEnd_overload] at hw
  rw [Field.bytes_length] at hk hw
  rcases hend : fieldEnd (p.memory behind) code 0
      (Tlv.parse DHCP_PADDING DHCP_END s.field.base (s.field.bytes p)).1
      (Tlv.parse DHCP_PADDING DHCP_END s.field.base (s.field.bytes p)).2 with a | _ | ⟨q, b⟩
  · rw [hend] at hw
    refine ⟨k, Nat.pos_of_ne_zero ?_, by omega, ?_⟩
    · rintro rfl
      cases hw 0
    · rw [Stop.body, hend]
      exact hw
  · rw [hend] at hw
    refine ⟨k, Nat.pos_of_ne_zero ?_, by omega, ?_⟩
    · rintro rfl
      cases hw 0
    · rw [Stop.body, hend]
      exact hw
  · obtain ⟨hfin, hlt⟩ := fieldEnd_fin hspell hend
    rw [Field.bytes_length] at hlt
    rw [hend] at hw
    refine ⟨k + 1, Nat.succ_pos k, by omega, ?_⟩
    have hbody := body_fin code (ov ||| b) hfin (Nat.sub_pos_of_lt hlt)
    rw [Nat.cast_sub (Nat.le_of_lt hlt), bit_or, bit_or, hfile, hsname, Bool.false_or]
      at hbody
    have hrun : ∀ n, Loop.iterate (Walk.body (p.memory behind) code) (n + (k + 1))
        (Walk.start s.field ov) = Loop.iterate (Walk.body (p.memory behind) code) (n + 1)
          ⟨q, (s.field.base + s.field.size : Nat) - q, ov ||| b⟩ := by
      intro n
      rw [show n + (k + 1) = n + 1 + k by omega]
      exact hw (n + 1)
    rw [Stop.body, hend]
    dsimp only
    split_ifs at hbody ⊢ with hf hs
    · refine ⟨Walk.start .file ((ov ||| b) &&& ~~~FILE_FIELD), ⟨_, rfl, bit_clear _ _, ?_⟩, ?_⟩
      · rw [bit_sname_clear_file, bit_or, hsname]
        rfl
      · intro n
        rw [hrun, Loop.iterate_inl hbody]
    · refine ⟨Walk.start .sname ((ov ||| b) &&& ~~~SNAME_FIELD), ⟨_, rfl, ?_, bit_clear _ _⟩, ?_⟩
      · rw [bit_file_clear_sname, bit_or, hfile, Bool.false_or]
        exact Bool.eq_false_iff.mpr hf
      · intro n
        rw [hrun, Loop.iterate_inl hbody]
    · intro n
      rw [hrun, Loop.iterate_inr hbody]

/-! ### What `dhcp_get_option` returns -/

theorem getOption_eq (p : Packet) (behind : Nat → UInt8) (code : UInt8) :
    dhcpGetOption (p.memory behind) code =
      Loop.iterate (Stop.body (p.memory behind) p code) 4 .options := by
  have S := walk_refines p behind code
  rcases hc : Loop.iterate (Stop.body (p.memory behind) p code) 4 .options with - | r
  · rcases hf : dhcpGetOption (p.memory behind) code with - | r
    · rfl
    · have hcard := Loop.iterate_card (S.back atStop_options hf)
      rw [show Fintype.card Stop = 4 from rfl, hc] at hcard
      cases hcard
  · exact S.iterate atStop_options hc

/-- **It returns within 2048 rounds or never.** -/
theorem getOption_returns {p : Packet} {behind : Nat → UInt8} {code : UInt8} {n : Nat}
    {r : Option Nat}
    (h : Loop.iterate (Walk.body (p.memory behind) code) n (Walk.start .options 0) = some r) :
    dhcpGetOption (p.memory behind) code = some r := by
  have hback := (walk_refines p behind code).back atStop_options h
  rw [getOption_eq]
  exact Loop.iterate_card hback

/-- An option that a stop of the walk returns is the first of its code in its field. -/
theorem stop_found {s : Stop} {a : Nat}
    (h : Stop.body mem p code s = .inr (some a)) :
    ∃ o, (Tlv.parse DHCP_PADDING DHCP_END s.field.base (s.field.bytes p)).1.find?
      (fun o => o.item.code == code) = some o ∧ a = o.pos + 2 := by
  unfold Stop.body fieldEnd at h
  rcases hfind : (Tlv.parse DHCP_PADDING DHCP_END s.field.base (s.field.bytes p)).1.find?
      (fun o => o.item.code == code) with - | o
  · rw [hfind] at h
    dsimp only at h
    split at h
    · next heq => split at heq <;> cases heq
    · cases h
    · split_ifs at h
      cases h
  · rw [hfind] at h
    cases h
    exact ⟨o, hfind, rfl⟩

/-- The overload bit that names a field. -/
def Field.flag : Field → UInt8
  | .options => 0
  | .file    => FILE_FIELD
  | .sname   => SNAME_FIELD

/-- The fields that hold options: `options`, and those that the overload options of such a field
name, if it ends with an end byte. -/
inductive Named (p : Packet) (behind : Nat → UInt8) : Field → Prop where
  | options : Named p behind .options
  | overload {f g : Field} {o : Found} {q : Nat} (named : Named p behind f)
      (found : o ∈ (Tlv.parse DHCP_PADDING DHCP_END f.base (f.bytes p)).1)
      (ends : (Tlv.parse DHCP_PADDING DHCP_END f.base (f.bytes p)).2 = .fin q)
      (overload : o.item.code = DHCP_OPTION_OVERLOAD)
      (names : bit g.flag (p.memory behind (o.pos + 2)) = true) :
      Named p behind g

/-- An overload bit comes from an overload option. -/
theorem bit_of_gather {f : UInt8} {os : List Found} (h : bit f (gather mem ov os) = true) :
    bit f ov = true ∨ ∃ o ∈ os, o.item.code = DHCP_OPTION_OVERLOAD ∧
    bit f (mem (o.pos + 2)) = true := by
  induction os generalizing ov with
  | nil => exact Or.inl h
  | cons o os ih =>
      rw [gather, List.foldl_cons] at h
      rcases ih h with hov | ⟨o', ho', hcode, hbit⟩
      · split_ifs at hov with hcode
        · rw [bit_or, Bool.or_eq_true] at hov
          exact hov.imp_right fun hbit => ⟨o, List.mem_cons_self, hcode, hbit⟩
        · exact Or.inl hov
      · exact Or.inr ⟨o', List.mem_cons_of_mem _ ho', hcode, hbit⟩

/-- The walk goes to fields that hold options only. -/
theorem stop_named {behind : Nat → UInt8} {s s' : Stop}
    (h : Named p behind s.field ∧ (s.pending = true → Named p behind .sname))
    (hb : Stop.body (p.memory behind) p code s = .inl s') :
    Named p behind s'.field ∧ (s'.pending = true → Named p behind .sname) := by
  obtain ⟨hnamed, hpending⟩ := h
  unfold Stop.body at hb
  split at hb
  · cases hb
  · cases hb
  · next q b hend =>
      obtain ⟨hgather, hfin⟩ : b = gather (p.memory behind) 0
          (Tlv.parse DHCP_PADDING DHCP_END s.field.base (s.field.bytes p)).1 ∧
          (Tlv.parse DHCP_PADDING DHCP_END s.field.base (s.field.bytes p)).2 = .fin q := by
        unfold fieldEnd at hend
        split at hend
        · cases hend
        · split at hend
          · next heq =>
              cases hend
              exact ⟨rfl, heq⟩
          · cases hend
          · cases hend
      have hgoes : ∀ g : Field, bit g.flag b = true → Named p behind g := by
        intro g hg
        rw [hgather] at hg
        rcases bit_of_gather hg with hzero | ⟨o, ho, hcode, hbit⟩
        · simp [bit] at hzero
        · exact .overload hnamed ho hfin hcode hbit
      have hsname : (s.pending || bit SNAME_FIELD b) = true → Named p behind .sname := by
        intro h
        exact (Bool.or_eq_true _ _ ▸ h).elim hpending (hgoes .sname)
      split_ifs at hb with hf hs
      · cases hb
        exact ⟨hgoes .file hf, hsname⟩
      · cases hb
        exact ⟨hsname hs, nofun⟩

/-- **What it returns.**  The pointer is to the data of an option of that code: the first one in a
field that holds options, where it lies, code, length and data. -/
theorem getOption_found {a : Nat} (h : dhcpGetOption (p.memory behind) code = some (some a)) :
    ∃ f o, Named p behind f ∧
      (Tlv.parse DHCP_PADDING DHCP_END f.base (f.bytes p)).1.find? (fun o => o.item.code == code) =
      some o ∧
      o.item.code = code ∧ a = o.pos + 2 ∧ f.base ≤ o.pos ∧ o.next ≤ f.base + f.size ∧
      Spells (p.memory behind) o.pos o.item.bytes := by
  rw [getOption_eq] at h
  have hstart : Named p behind Stop.options.field ∧
      (Stop.options.pending = true → Named p behind .sname) :=
    ⟨.options, nofun⟩
  obtain ⟨s, ⟨hnamed, -⟩, hs⟩ := Loop.iterate_invariant
    (I := fun s => Named p behind s.field ∧ (s.pending = true → Named p behind .sname))
    (fun _ _ => stop_named) hstart h
  obtain ⟨o, hfind, rfl⟩ := stop_found hs
  have ho := List.mem_of_find?_eq_some hfind
  obtain ⟨hle, hnext, -, -⟩ := Tlv.parse_found ho
  rw [Field.bytes_length] at hnext
  exact ⟨s.field, o, hnamed, hfind, by simpa using List.find?_some hfind, rfl, hle, hnext,
    (spells_field p behind s.field).found ho⟩

/-- An option that stands in `file`. -/
theorem getOption_found_overload : ∃ (p : Packet) (f : Field) (o : Found),
    p.options = Octets.write (.zero 388) 0 [DHCP_OPTION_OVERLOAD, 1, 1, DHCP_END] ∧
      Named p (fun _ => 0) f ∧
      o ∈ (Tlv.parse DHCP_PADDING DHCP_END f.base (f.bytes p)).1 ∧ o.item.code = DHCP_HOST_NAME ∧
      o.pos = 108 ∧
      dhcpGetOption (p.memory fun _ => 0) DHCP_HOST_NAME = some (some 110) := by
  have hget : dhcpGetOption ({ Packet.zero with
      options := Octets.write (.zero 388) 0 [DHCP_OPTION_OVERLOAD, 1, 1, DHCP_END],
      file := Octets.write (.zero 128) 0 [DHCP_HOST_NAME, 1, 97, DHCP_END] }.memory fun _ => 0)
        DHCP_HOST_NAME =
      some (some 110) := by decide +kernel
  obtain ⟨f, o, hnamed, hfind, hcode, ha, -⟩ := getOption_found hget
  exact ⟨_, f, o, rfl, hnamed, List.mem_of_find?_eq_some hfind, hcode, by omega, hget⟩

/-! ### The byte behind a field -/

/-- The memory inside the packet. -/
theorem memory_inside {a : Nat} (h : a < 628) (behind behind' : Nat → UInt8) :
    p.memory behind a = p.memory behind' a := by
  have hlt : a < p.toBytes.length := by
    rw [p.toBytes_length]
    exact h
  rw [Packet.memory, Packet.memory, List.getElem?_eq_getElem hlt]

theorem Field.inside (f : Field) : f.base + f.size ≤ 628 := by
  cases f <;> decide

theorem fieldEnd_independent (behind behind' : Nat → UInt8) (f : Field) :
    fieldEnd (p.memory behind) code 0 (Tlv.parse DHCP_PADDING DHCP_END f.base (f.bytes p)).1
        (Tlv.parse DHCP_PADDING DHCP_END f.base (f.bytes p)).2 =
      fieldEnd (p.memory behind') code 0 (Tlv.parse DHCP_PADDING DHCP_END f.base (f.bytes p)).1
        (Tlv.parse DHCP_PADDING DHCP_END f.base (f.bytes p)).2 := by
  unfold fieldEnd
  split
  · rfl
  · rcases hend : (Tlv.parse DHCP_PADDING DHCP_END f.base (f.bytes p)).2 with q | _ | _
    · -- every byte an overload option is read at stands before the end byte
      obtain ⟨-, hlt, -⟩ := Tlv.parse_ending hend
      rw [Field.bytes_length] at hlt
      have hin := f.inside
      have hgather :
          gather (p.memory behind) 0 (Tlv.parse DHCP_PADDING DHCP_END f.base (f.bytes p)).1 =
          gather (p.memory behind') 0 (Tlv.parse DHCP_PADDING DHCP_END f.base (f.bytes p)).1 := by
        refine List.foldl_ext _ _ _ fun ov o ho => ?_
        have hnext := Tlv.parse_found_fin ho hend
        rw [memory_inside (a := o.pos + 2) ?_ behind behind']
        simp only [Tlv.Found.next] at hnext
        omega
      simp only [hgather]
    · rfl
    · rfl

/-- **What stands behind the packet does not matter**, although the walk may read a byte of it. -/
theorem getOption_independent (p : Packet) (code : UInt8) (behind behind' : Nat → UInt8) :
    dhcpGetOption (p.memory behind) code = dhcpGetOption (p.memory behind') code := by
  have hbody : Stop.body (p.memory behind) p code = Stop.body (p.memory behind') p code := by
    funext s
    rw [Stop.body, Stop.body, fieldEnd_independent behind behind']
  rw [getOption_eq, getOption_eq, hbody]

/-! ### Endless loops -/

/-- Before its end byte, the field holds no overload option. -/
def Plain (p : Packet) (f : Field) : Prop :=
  ∀ o ∈ (Tlv.parse DHCP_PADDING DHCP_END f.base (f.bytes p)).1, o.item.code ≠ DHCP_OPTION_OVERLOAD

theorem gather_plain {os : List Found} (h : ∀ o ∈ os, o.item.code ≠ DHCP_OPTION_OVERLOAD) :
    gather mem ov os = ov := by
  induction os with
  | nil => rfl
  | cons o os ih =>
      have htail := ih fun o ho => h o (List.mem_cons_of_mem _ ho)
      rw [gather, List.foldl_cons, if_neg (h o List.mem_cons_self)]
      exact htail

/-- From a field without overload options the walk goes on to what was pending, or returns. -/
theorem stop_plain {s s' : Stop} (h : Plain p s.field) (hb : Stop.body mem p code s = .inl s') :
    s' = .sname ∧ s.pending = true := by
  unfold Stop.body fieldEnd at hb
  split at hb
  · cases hb
  · cases hb
  · next q b hend =>
      have hzero : b = 0 := by
        split at hend
        · cases hend
        · split at hend
          · cases hend
            exact gather_plain h
          · cases hend
          · cases hend
      subst hzero
      have hfile : bit FILE_FIELD 0 = false := by decide
      have hsname : bit SNAME_FIELD 0 = false := by decide
      rw [hfile, hsname, Bool.or_false, if_neg Bool.false_ne_true] at hb
      split_ifs at hb with hp
      · exact ⟨(Sum.inl.inj hb).symm, hp⟩

/-- If `file` and `sname` hold no overload option before their end bytes,
`dhcp_get_option` returns, whatever else the packet holds. -/
theorem getOption_plain (hfile : Plain p .file) (hsname : Plain p .sname) (code : UInt8)
    (behind : Nat → UInt8) : ∃ r, dhcpGetOption (p.memory behind) code = some r := by
  rw [getOption_eq]
  -- from `sname` the walk goes nowhere, from `file` at most to `sname`
  have hs : ∀ n, ∃ r, Loop.iterate (Stop.body (p.memory behind) p code)
      (n + 1) .sname = some r := by
    intro n
    rcases hb : Stop.body (p.memory behind) p code .sname with s' | r
    · cases (stop_plain (s := .sname) hsname hb).2
    · exact ⟨r, Loop.iterate_inr hb⟩
  have hf : ∀ n b, ∃ r, Loop.iterate (Stop.body (p.memory behind) p code) (n + 2)
      (.file b) = some r := by
    intro n b
    rcases hb : Stop.body (p.memory behind) p code (.file b) with s' | r
    · rw [Loop.iterate_inl hb, (stop_plain (s := .file b) hfile hb).1]
      exact hs n
    · exact ⟨r, Loop.iterate_inr hb⟩
  rcases hb : Stop.body (p.memory behind) p code .options with s' | r
  · rw [Loop.iterate_inl hb]
    cases s' with
    | options =>
        unfold Stop.body at hb
        split at hb
        · cases hb
        · cases hb
        · split_ifs at hb <;> cases hb
    | file b => exact hf 1 b
    | sname => exact hs 2
  · exact ⟨r, Loop.iterate_inr hb⟩

/-- From this field the walk goes on to `file`: there is no such option, an end byte, and an
overload option before it that says so. -/
structure ToFile (p : Packet) (code : UInt8) (f : Field) : Prop where
  fin : ∃ q, (Tlv.parse DHCP_PADDING DHCP_END f.base (f.bytes p)).2 = .fin q
  absent : ∀ o ∈ (Tlv.parse DHCP_PADDING DHCP_END f.base (f.bytes p)).1, o.item.code ≠ code
  overload : ∃ o ∈ (Tlv.parse DHCP_PADDING DHCP_END f.base (f.bytes p)).1,
    o.item.code = DHCP_OPTION_OVERLOAD ∧
    ∃ b ∈ o.item.data.head?, bit FILE_FIELD b = true

theorem bit_gather {f : UInt8} {o : Found} {os : List Found} (ho : o ∈ os)
    (hcode : o.item.code = DHCP_OPTION_OVERLOAD) (hb : bit f (mem (o.pos + 2)) = true)
    (ov : UInt8) : bit f (gather mem ov os) = true := by
  induction os generalizing ov with
  | nil => cases ho
  | cons a os ih =>
      rw [gather, List.foldl_cons]
      rcases List.mem_cons.mp ho with rfl | ho
      · have hsplit := gather_eq mem (ov ||| mem (o.pos + 2)) os
        rw [if_pos hcode]
        rw [gather] at hsplit
        rw [hsplit, bit_or, bit_or, hb, Bool.or_true, Bool.true_or]
      · exact ih ho _

theorem stop_toFile {s : Stop} (h : ToFile p code s.field) (behind : Nat → UInt8) :
    ∃ b, Stop.body (p.memory behind) p code s = .inl (.file b) := by
  obtain ⟨q, hfin⟩ := h.fin
  obtain ⟨o, ho, hcode, b, hb, hbit⟩ := h.overload
  have hbyte : p.memory behind (o.pos + 2) = b := by
    obtain ⟨rest, hdata⟩ := List.head?_eq_some_iff.mp (Option.mem_def.mp hb)
    exact (spells_field p behind s.field).found ho 2 b (by simp [Tlv.Item.bytes, hdata])
  rw [← hbyte] at hbit
  have hgather := bit_gather ho hcode hbit 0
  have hnone : (Tlv.parse DHCP_PADDING DHCP_END s.field.base (s.field.bytes p)).1.find?
      (fun o => o.item.code == code) = none := by
    rw [List.find?_eq_none]
    intro o ho
    simpa using h.absent o ho
  have hbody : Stop.body (p.memory behind) p code s = .inl (.file (s.pending || bit SNAME_FIELD
      (gather (p.memory behind) 0
        (Tlv.parse DHCP_PADDING DHCP_END s.field.base (s.field.bytes p)).1))) := by
    simp only [Stop.body, fieldEnd, hnone, hfin, if_pos hgather]
  exact ⟨_, hbody⟩

/-- If `options` and `file` both send the walk to `file`, `dhcp_get_option` never returns. -/
theorem getOption_endless (h : ToFile p code .options) (h' : ToFile p code .file)
    (behind : Nat → UInt8) (n : Nat) :
    Loop.iterate (Walk.body (p.memory behind) code) n (Walk.start .options 0) = none := by
  have hfile : ∀ n b, Loop.iterate (Stop.body (p.memory behind) p code) n (.file b) = none := by
    intro n
    induction n with
    | zero => exact fun _ => rfl
    | succ n ih =>
        intro b
        obtain ⟨b', hb⟩ := stop_toFile (s := .file b) h' behind
        rw [Loop.iterate_inl hb]
        exact ih b'
  rcases hn : Loop.iterate (Walk.body (p.memory behind) code) n (Walk.start .options 0) with - | r
  · rfl
  · have hret := getOption_returns hn
    obtain ⟨b, hb⟩ := stop_toFile (s := .options) h behind
    rw [getOption_eq, Loop.iterate_inl hb, hfile] at hret
    cases hret

/-- A field that holds an overload option only, which names `file`. -/
theorem toFile_overload {f : Field} {rest : List UInt8} (hcode : code ≠ DHCP_OPTION_OVERLOAD)
    (h : f.bytes p = DHCP_OPTION_OVERLOAD :: 1 :: FILE_FIELD :: DHCP_END :: rest) :
    ToFile p code f := by
  have hfits : ∀ o ∈ [(⟨DHCP_OPTION_OVERLOAD, [FILE_FIELD]⟩ : Tlv.Item)],
      o.Fits DHCP_PADDING DHCP_END := by
    intro o ho
    rw [List.mem_singleton.mp ho]
    exact ⟨by decide, by decide, by decide⟩
  have hparse : Tlv.parse DHCP_PADDING DHCP_END f.base (f.bytes p) =
      ([⟨f.base, ⟨DHCP_OPTION_OVERLOAD, [FILE_FIELD]⟩⟩], .fin (f.base + 3)) := by
    rw [h]
    exact Tlv.parse_encode (by decide) hfits
  refine ⟨⟨_, by rw [hparse]⟩, ?_, ?_⟩
  · rw [hparse]
    intro o ho
    rw [List.mem_singleton.mp ho]
    exact hcode.symm
  · rw [hparse]
    exact ⟨_, List.mem_cons_self, rfl, FILE_FIELD, rfl, by decide⟩

/-- **When it returns.**  It does if `file` and `sname` hold no overload option before their end
bytes, whatever else the packet holds; and it never does if `options` and `file` both send the walk
to `file`. -/
theorem getOption_total (p : Packet) (behind : Nat → UInt8) (code : UInt8) :
    (Plain p .file → Plain p .sname → ∃ r, dhcpGetOption (p.memory behind) code = some r) ∧
      (ToFile p code .options → ToFile p code .file →
        ∀ n, Loop.iterate (Walk.body (p.memory behind) code) n (Walk.start .options 0) = none) :=
  ⟨fun hfile hsname => getOption_plain hfile hsname code behind,
    fun h h' => getOption_endless h h' behind⟩

/-- A packet whose options go on in `file`, and one whose `file` goes on in `file`. -/
theorem getOption_total_overload : ∃ p q : Packet,
    p.options = Octets.write (.zero 388) 0 [DHCP_OPTION_OVERLOAD, 1, 1, DHCP_END] ∧
      q.options = p.options ∧
      (∀ code behind, ∃ r, dhcpGetOption (p.memory behind) code = some r) ∧
      ∀ behind n, Loop.iterate (Walk.body (q.memory behind) DHCP_MESSAGE_TYPE) n
        (Walk.start .options 0) = none := by
  have hplain : ∀ {f : Field} {p : Packet} {rest : List UInt8}, f.bytes p = DHCP_END :: rest →
      Plain p f := by
    intro f p rest heq o ho
    rw [heq, Tlv.parse_fin (by decide)] at ho
    cases ho
  refine ⟨{ Packet.zero with
    options := Octets.write (.zero 388) 0 [DHCP_OPTION_OVERLOAD, 1, 1, DHCP_END],
    file := Octets.write (.zero 128) 0 [DHCP_END],
    sname := Octets.write (.zero 64) 0 [DHCP_END] }, { Packet.zero with
    options := Octets.write (.zero 388) 0 [DHCP_OPTION_OVERLOAD, 1, 1, DHCP_END],
    file := Octets.write (.zero 128) 0 [DHCP_OPTION_OVERLOAD, 1, 1, DHCP_END] }, rfl, rfl, ?_, ?_⟩
  · exact fun code behind => (getOption_total _ behind code).1 (hplain (f := .file) rfl)
      (hplain (f := .sname) rfl)
  · exact fun behind => (getOption_total _ behind DHCP_MESSAGE_TYPE).2
      (toFile_overload (f := .options) (by decide) rfl)
      (toFile_overload (f := .file) (by decide) rfl)

end OpenWfd.Dhcp
