import Mathlib.Data.List.Basic
import Mathlib.Tactic.Common

/-!
# Support — Tlv

Options in a row: `code`, `length`, `length` bytes of data, with a padding byte anywhere between two
of them and an end byte after the last.  `parse` says what a field of such options holds and how it
ends; a loop that walks over memory is measured against it by `Spells`.
-/

namespace OpenWfd.Tlv

/-- An option. -/
structure Item where
  code : UInt8
  data : List UInt8
  deriving DecidableEq, Repr

/-- How it is written. -/
def Item.bytes (o : Item) : List UInt8 := o.code :: UInt8.ofNat o.data.length :: o.data

/-- Options in a row. -/
def encode (os : List Item) : List UInt8 := os.flatMap Item.bytes

/-- An option, and where its code stands. -/
structure Found where
  pos : Nat
  item : Item
  deriving DecidableEq, Repr

/-- Where the field's data goes on after it. -/
def Found.next (o : Found) : Nat := o.pos + 2 + o.item.data.length

/-- How a field ends: with the end byte, with its last byte, or in the middle of an option. -/
inductive Ending where
  | fin (pos : Nat)
  | exhausted
  | broken
  deriving DecidableEq, Repr

section

variable (pad fin : UInt8)

/-- An option that can be told from padding and the end, and whose length fits its byte. -/
structure Item.Fits (o : Item) : Prop where
  not_pad : o.code ≠ pad
  not_fin : o.code ≠ fin
  short : o.data.length < 256

/-- The options of a field whose first byte stands at `pos`, and how it ends. -/
def parse (pos : Nat) : List UInt8 → List Found × Ending
  | []        => ([], .exhausted)
  | c :: rest =>
    if c = pad then parse (pos + 1) rest
    else if c = fin then ([], .fin pos)
    else
      match rest with
      | []        => ([], .broken)
      | l :: rest =>
        if l.toNat ≤ rest.length then
          let (os, e) := parse (pos + 2 + l.toNat) (rest.drop l.toNat)
          (⟨pos, ⟨c, rest.take l.toNat⟩⟩ :: os, e)
        else ([], .broken)
termination_by bs => bs.length
decreasing_by all_goals simp only [List.length_cons, List.length_drop]; omega

/-- Options in a row, the first at `pos`. -/
def place (pos : Nat) : List Item → List Found
  | []      => []
  | o :: os => ⟨pos, o⟩ :: place (pos + 2 + o.data.length) os

end

variable {pad fin : UInt8} {pos : Nat} {c l : UInt8} {rest bs : List UInt8}

@[simp] theorem parse_nil : parse pad fin pos [] = ([], .exhausted) := by rw [parse]

@[simp] theorem parse_pad : parse pad fin pos (pad :: rest) = parse pad fin (pos + 1) rest := by
  rw [parse.eq_def]
  exact if_pos rfl

theorem parse_fin (h : fin ≠ pad) : parse pad fin pos (fin :: rest) = ([], .fin pos) := by
  rw [parse.eq_def]
  exact (if_neg h).trans (if_pos rfl)

theorem parse_item (hp : c ≠ pad) (hf : c ≠ fin) (hl : l.toNat ≤ rest.length) :
    parse pad fin pos (c :: l :: rest) =
      (⟨pos, ⟨c, rest.take l.toNat⟩⟩ ::
          (parse pad fin (pos + 2 + l.toNat) (rest.drop l.toNat)).1,
        (parse pad fin (pos + 2 + l.toNat) (rest.drop l.toNat)).2) := by
  rw [parse, if_neg hp, if_neg hf]
  exact if_pos hl

/-! ### What was written is read -/

@[simp] theorem encode_nil : encode [] = [] := rfl

theorem encode_cons (o : Item) (os : List Item) : encode (o :: os) = o.bytes ++ encode os := rfl

theorem encode_append (os os' : List Item) : encode (os ++ os') = encode os ++ encode os' :=
  List.flatMap_append

@[simp] theorem Item.bytes_length (o : Item) : o.bytes.length = 2 + o.data.length := by
  simp [Item.bytes]; omega

/-- **What was written is read**, up to the end byte. -/
theorem parse_encode (h : fin ≠ pad) {os : List Item} (hos : ∀ o ∈ os, o.Fits pad fin) :
    parse pad fin pos (encode os ++ fin :: rest) =
      (place pos os, .fin (pos + (encode os).length)) := by
  induction os generalizing pos with
  | nil => simp [place, parse_fin h]
  | cons o os ih =>
      obtain ⟨hp, hf, hs⟩ := hos o List.mem_cons_self
      have hlen : (UInt8.ofNat o.data.length).toNat = o.data.length := by
        rw [UInt8.toNat_ofNat']
        omega
      have hread : encode (o :: os) ++ fin :: rest =
          o.code :: UInt8.ofNat o.data.length :: (o.data ++ (encode os ++ fin :: rest)) := by
        simp [encode_cons, Item.bytes]
      have hle : o.data.length ≤ (o.data ++ (encode os ++ fin :: rest)).length := by
        rw [List.length_append]
        omega
      rw [hread, parse_item hp hf (by rw [hlen]; exact hle), hlen, List.take_left, List.drop_left,
        ih fun o ho => hos o (List.mem_cons_of_mem _ ho)]
      simp only [place, encode_cons, List.length_append, Item.bytes_length, Prod.mk.injEq, true_and,
        Ending.fin.injEq]
      omega

/-! ### Where options stand -/

/-- What `parse` says of an option it found: it is in the field, and its bytes are there. -/
theorem parse_found {o : Found} (h : o ∈ (parse pad fin pos bs).1) :
    pos ≤ o.pos ∧ o.next ≤ pos + bs.length ∧ o.item.Fits pad fin ∧
      o.item.bytes <+: bs.drop (o.pos - pos) := by
  fun_induction parse pad fin pos bs with
  | case1 pos => cases h
  | case2 pos rest ih =>
      obtain ⟨h₁, h₂, h₃, h₄⟩ := ih h
      refine ⟨by omega, ?_, h₃, ?_⟩
      · rw [List.length_cons]
        omega
      · rwa [show o.pos - pos = (o.pos - (pos + 1)) + 1 by omega]
  | case3 pos rest => cases h
  | case4 pos c hp hf => cases h
  | case5 pos c hp hf l rest hl os e hparse ih =>
      rw [hparse] at ih
      rcases List.mem_cons.mp h with rfl | hmem
      · have hlen : (rest.take l.toNat).length = l.toNat := by
          rw [List.length_take]
          omega
        have hl256 := l.toNat_lt
        refine ⟨Nat.le_refl _, ?_, ⟨hp, hf, ?_⟩, ?_⟩
        · simp only [Found.next, hlen, List.length_cons]
          omega
        · show (rest.take l.toNat).length < 256
          omega
        · have hbyte : UInt8.ofNat l.toNat = l := UInt8.toNat.inj (by simp)
          simp only [Item.bytes, hlen, hbyte, Nat.sub_self, List.drop_zero]
          rw [List.cons_prefix_cons, List.cons_prefix_cons]
          exact ⟨rfl, rfl, List.take_prefix _ _⟩
      · obtain ⟨h₁, h₂, h₃, h₄⟩ := ih hmem
        rw [List.length_drop] at h₂
        refine ⟨by omega, ?_, h₃, ?_⟩
        · simp only [List.length_cons]
          omega
        · rw [List.drop_drop] at h₄
          have hdrop : o.pos - pos = (l.toNat + (o.pos - (pos + 2 + l.toNat))) + 1 + 1 := by omega
          rw [hdrop]
          simpa using h₄
  | case6 pos c hp hf l rest hl => cases h

/-- The end byte stands in the field. -/
theorem parse_ending {p : Nat} (h : (parse pad fin pos bs).2 = .fin p) :
    pos ≤ p ∧ p < pos + bs.length ∧ bs[p - pos]? = some fin := by
  fun_induction parse pad fin pos bs with
  | case1 pos => cases h
  | case2 pos rest ih =>
      obtain ⟨h₁, h₂, h₃⟩ := ih h
      refine ⟨by omega, ?_, ?_⟩
      · rw [List.length_cons]
        omega
      · rwa [show p - pos = (p - (pos + 1)) + 1 by omega, List.getElem?_cons_succ]
  | case3 pos rest =>
      cases h
      exact ⟨Nat.le_refl _, by simp, by simp⟩
  | case4 pos c hp hf => cases h
  | case5 pos c hp hf l rest hl os e hparse ih =>
      rw [hparse] at ih
      obtain ⟨h₁, h₂, h₃⟩ := ih h
      rw [List.length_drop] at h₂
      refine ⟨by omega, ?_, ?_⟩
      · simp only [List.length_cons]
        omega
      · rw [List.getElem?_drop] at h₃
        rw [show p - pos = (l.toNat + (p - (pos + 2 + l.toNat))) + 1 + 1 by omega]
        simpa using h₃
  | case6 pos c hp hf l rest hl => cases h

/-- The options of a field stand before its end byte. -/
theorem parse_found_fin {o : Found} {p : Nat} (h : o ∈ (parse pad fin pos bs).1)
    (hend : (parse pad fin pos bs).2 = .fin p) : o.next ≤ p := by
  fun_induction parse pad fin pos bs with
  | case1 pos => cases h
  | case2 pos rest ih => exact ih h hend
  | case3 pos rest => cases h
  | case4 pos c hp hf => cases h
  | case5 pos c hp hf l rest hl os e hparse ih =>
      rw [hparse] at ih
      rcases List.mem_cons.mp h with rfl | hmem
      · have hfin : (parse pad fin (pos + 2 + l.toNat) (rest.drop l.toNat)).2 = .fin p := by
          rw [hparse]
          exact hend
        have hle := (parse_ending hfin).1
        simp only [Found.next, List.length_take]
        omega
      · exact ih hmem hend
  | case6 pos c hp hf l rest hl => cases h

/-! ### Fields in memory -/

/-- The memory spells these bytes from the address `pos` on. -/
def Spells (mem : Nat → UInt8) (pos : Nat) (bs : List UInt8) : Prop :=
  ∀ i b, bs[i]? = some b → mem (pos + i) = b

variable {mem : Nat → UInt8}

theorem Spells.head (h : Spells mem pos (c :: rest)) : mem pos = c := h 0 c rfl

theorem Spells.drop (h : Spells mem pos bs) (n : Nat) : Spells mem (pos + n) (bs.drop n) := by
  intro i b hi
  rw [List.getElem?_drop] at hi
  rw [Nat.add_assoc]
  exact h (n + i) b hi

theorem Spells.tail (h : Spells mem pos (c :: rest)) : Spells mem (pos + 1) rest := h.drop 1

theorem Spells.initial {bs' : List UInt8} (h : Spells mem pos bs) (hp : bs' <+: bs) :
    Spells mem pos bs' := by
  obtain ⟨t, rfl⟩ := hp
  intro i b hi
  have hlt : i < bs'.length := (List.getElem?_eq_some_iff.mp hi).1
  exact h i b (by rwa [List.getElem?_append_left hlt])

/-- The bytes that memory spells. -/
theorem Spells.eq {n : Nat} (h : Spells mem pos bs) (hn : bs.length = n) :
    (List.range n).map (fun i => mem (pos + i)) = bs := by
  subst hn
  refine List.ext_getElem (by simp) ?_
  intro i h₁ h₂
  rw [List.getElem_map, List.getElem_range]
  exact h i bs[i] (List.getElem?_eq_getElem h₂)

/-- An option found in a field that memory spells. -/
theorem Spells.found {o : Found} (h : Spells mem pos bs) (ho : o ∈ (parse pad fin pos bs).1) :
    Spells mem o.pos o.item.bytes := by
  obtain ⟨hle, -, -, hpre⟩ := parse_found ho
  have hs := (h.drop (o.pos - pos)).initial hpre
  rwa [show pos + (o.pos - pos) = o.pos by omega] at hs

end OpenWfd.Tlv
