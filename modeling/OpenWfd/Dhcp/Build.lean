import OpenWfd.Dhcp.Options

/-!
# Dhcp — Build

Packets as `src/gdhcp` builds them: `dhcp_init_header`, then options one after the other.  The
options are in a row (`Built`), an option that does not fit is left out (`added`), and
`dhcp_get_option` gives back the first one of its code.
-/

namespace OpenWfd.Dhcp

open Tlv (Item Found Spells encode place)

/-- An option that the code may add: it is no padding, no end, and not an overload option. -/
structure Addable (o : Item) : Prop where
  fits : o.Fits DHCP_PADDING DHCP_END
  not_overload : o.code ≠ DHCP_OPTION_OVERLOAD

/-- The packet's options are `os`, and the end byte is sent along. -/
structure Built (p : Packet) (os : List Item) : Prop where
  options : ∃ rest, p.options.1 = encode os ++ DHCP_END :: rest
  addable : ∀ o ∈ os, Addable o
  room : (encode os).length + 1 < OPTIONS_BUFSIZE

/-- The options after `dhcp_add_binary_option`. -/
def added (os : List Item) (o : Item) : List Item :=
  if (encode os).length + (2 + o.data.length) + 1 < OPTIONS_BUFSIZE then os ++ [o] else os

variable {p : Packet} {os : List Item} {o : Item} {behind : Nat → UInt8} {code : UInt8}

/-! ### Adding an option -/

theorem endOption_encode (pre rest : List UInt8) (fuel : Nat)
    (hos : ∀ o ∈ os, o.Fits DHCP_PADDING DHCP_END) (hfuel : os.length < fuel) :
    endOption (pre ++ (encode os ++ DHCP_END :: rest)) fuel pre.length =
      some (pre.length + (encode os).length) := by
  induction os generalizing pre fuel with
  | nil =>
      obtain ⟨fuel, rfl⟩ : ∃ k, fuel = k + 1 := ⟨fuel - 1, by omega⟩
      simp [endOption]
  | cons o os ih =>
      obtain ⟨fuel, rfl⟩ : ∃ k, fuel = k + 1 := ⟨fuel - 1, by omega⟩
      obtain ⟨hp, hf, hs⟩ := hos o List.mem_cons_self
      have hlen : (UInt8.ofNat o.data.length).toNat = o.data.length := by
        rw [UInt8.toNat_ofNat']
        omega
      have hsplit : pre ++ (encode (o :: os) ++ DHCP_END :: rest) =
          (pre ++ o.bytes) ++ (encode os ++ DHCP_END :: rest) := by
        simp [Tlv.encode_cons]
      have h0 : (pre ++ (encode (o :: os) ++ DHCP_END :: rest))[pre.length]? = some o.code := by
        simp [Tlv.encode_cons, Item.bytes]
      have h1 : (pre ++ (encode (o :: os) ++ DHCP_END :: rest))[pre.length + 1]? =
          some (UInt8.ofNat o.data.length) := by
        rw [List.getElem?_append_right (by omega), Nat.add_sub_cancel_left]
        simp [Tlv.encode_cons, Item.bytes]
      have hrest := ih (pre ++ o.bytes) fuel
        (fun o ho => hos o (List.mem_cons_of_mem _ ho)) (by simpa using hfuel)
      rw [List.length_append, Tlv.Item.bytes_length] at hrest
      simp only [endOption, h0, h1, if_neg hp, if_neg hf, hlen]
      rw [show pre.length + (o.data.length + 2 - 1) + 1 = pre.length + (2 + o.data.length) by omega,
        hsplit, hrest, Tlv.encode_cons, List.length_append, Tlv.Item.bytes_length]
      congr 1
      omega

theorem encode_length_le (os : List Item) : 2 * os.length ≤ (encode os).length := by
  induction os with
  | nil => simp
  | cons o os ih =>
      rw [Tlv.encode_cons, List.length_append, Tlv.Item.bytes_length, List.length_cons]
      omega

theorem Built.endOption (h : Built p os) : dhcpEndOption p.options.1 = some (encode os).length := by
  obtain ⟨rest, hrest⟩ := h.options
  have hlen := p.options.2
  have hroom := h.room
  have hle := encode_length_le os
  simp only [OPTIONS_BUFSIZE] at hroom
  have hend := endOption_encode [] rest p.options.1.length
    (fun o ho => (h.addable o ho).fits) (by omega)
  rw [dhcpEndOption, hrest] at *
  simpa using hend

theorem write_val {n off : Nat} {a : Octets n} {src : List UInt8} (h : off + src.length ≤ n) :
    (Octets.write a off src).1 = memcpy a.1 off src := by
  rw [Octets.write, dif_pos h]

/-- Only the options change. -/
theorem addBinaryOption_rest (p : Packet) (o : Item) :
    ∃ options, dhcpAddBinaryOption p o = { p with options := options } := by
  unfold dhcpAddBinaryOption
  rcases dhcpEndOption p.options.1 with - | fin
  · exact ⟨p.options, rfl⟩
  · dsimp only
    split_ifs
    · exact ⟨p.options, rfl⟩
    · exact ⟨_, rfl⟩

/-- And they depend on the options only. -/
theorem addBinaryOption_congr {q : Packet} (h : p.options = q.options) (o : Item) :
    (dhcpAddBinaryOption p o).options = (dhcpAddBinaryOption q o).options := by
  unfold dhcpAddBinaryOption
  rw [h]
  rcases dhcpEndOption q.options.1 with - | fin
  · exact h
  · dsimp only
    split_ifs
    · exact h
    · rfl

/-- Options added one after the other. -/
theorem addAll_rest (p : Packet) (items : List Item) :
    ∃ options, items.foldl dhcpAddBinaryOption p = { p with options := options } := by
  induction items generalizing p with
  | nil => exact ⟨p.options, rfl⟩
  | cons o items ih =>
      obtain ⟨options, heq⟩ := addBinaryOption_rest p o
      obtain ⟨options', heq'⟩ := ih (dhcpAddBinaryOption p o)
      exact ⟨options', by rw [List.foldl_cons, heq', heq]⟩

/-- **Adding an option.** -/
theorem Built.add (h : Built p os) (ho : Addable o) :
    Built (dhcpAddBinaryOption p o) (added os o) := by
  obtain ⟨rest, hrest⟩ := h.options
  have hlen := p.options.2
  simp only [dhcpAddBinaryOption, h.endOption, added]
  by_cases hfit : (encode os).length + (2 + o.data.length) + 1 < OPTIONS_BUFSIZE
  · rw [if_neg (by omega), if_pos hfit]
    refine ⟨?_, ?_, ?_⟩
    · simp only [OPTIONS_BUFSIZE] at hfit
      have hblen := o.bytes_length
      dsimp only
      rw [write_val (by simp only [List.length_singleton]; omega), write_val (by omega), hrest,
        memcpy_append, ← List.append_assoc, ← hblen, ← List.length_append, memcpy_append,
        Tlv.encode_append, Tlv.encode_cons, Tlv.encode_nil, List.append_nil]
      exact ⟨_, rfl⟩
    · intro o' ho'
      rcases List.mem_append.mp ho' with ho' | ho'
      · exact h.addable o' ho'
      · rwa [List.mem_singleton.mp ho']
    · rw [Tlv.encode_append, List.length_append]
      simpa [Tlv.encode_cons] using hfit
  · rw [if_pos (by omega), if_neg hfit]
    exact h

/-- `dhcp_add_option_uint8`, `_uint16` and `_uint32`: an option of the table, at its length. -/
theorem Built.addOption {data : List UInt8} (h : Built p os) (ho : Addable ⟨code, data⟩)
    (hcheck : checkOption code data.length = true) :
    Built (addOption p code data) (added os ⟨code, data⟩) := by
  rw [Dhcp.addOption, if_pos hcheck]
  exact h.add ho

theorem checkOption_addable {data : List UInt8} (h : checkOption code data.length = true) :
    Addable ⟨code, data⟩ := by
  have htable : ∀ o ∈ clientOptions,
      o.2.2 ≠ DHCP_PADDING ∧ o.2.2 ≠ DHCP_END ∧ o.2.2 ≠ DHCP_OPTION_OVERLOAD := by decide
  have hlen : ∀ type : OptionType, optionLength type ≤ 4 := by
    intro type
    cases type <;> decide
  unfold checkOption dhcpGetCodeType at h
  rcases hfind : clientOptions.find? (fun o => o.2.2 == code) with - | ⟨type, list, c⟩
  · rw [hfind] at h
    cases h
  · obtain ⟨hp, hf, ho⟩ := htable _ (List.mem_of_find?_eq_some hfind)
    have hc : c = code := by simpa using List.find?_some hfind
    subst hc
    rw [hfind] at h
    have hle := hlen type
    have hdata : optionLength type = data.length := by
      cases type <;> simp_all
    refine ⟨⟨hp, hf, ?_⟩, ho⟩
    dsimp only
    omega

/-- Adding options one after the other. -/
theorem Built.addAll {extra : List Item} (h : Built p os) (hadd : ∀ o ∈ extra, Addable o) :
    Built (extra.foldl dhcpAddBinaryOption p) (extra.foldl added os) := by
  induction extra generalizing p os with
  | nil => exact h
  | cons o extra ih =>
      exact ih (h.add (hadd o List.mem_cons_self)) fun o ho => hadd o (List.mem_cons_of_mem _ ho)

/-! ### The header -/

/-- The options of a packet that has just been begun. -/
def begun (type : UInt8) : List Item := [⟨DHCP_MESSAGE_TYPE, [type]⟩]

/-- **A packet that has just been begun.** -/
theorem built_init (type : UInt8) : Built (dhcpInitHeader type) (begun type) := by
  have hempty : ∀ p : Packet, p.options = .zero 388 →
      Built { p with options := Octets.write p.options 0 [DHCP_END] } [] := by
    intro p hp
    refine ⟨⟨List.replicate 387 0, ?_⟩, List.forall_mem_nil _, by decide⟩
    dsimp only
    rw [write_val (by decide), hp]
    rfl
  have hcheck : checkOption DHCP_MESSAGE_TYPE [type].length = true := rfl
  unfold dhcpInitHeader
  split_ifs with htype
  · exact (hempty { Packet.zero with
      op := BOOTREPLY, htype := 1, hlen := 6, cookie := DHCP_MAGIC } rfl).addOption
      (checkOption_addable hcheck) hcheck
  · exact (hempty { Packet.zero with
      op := BOOTREQUEST, htype := 1, hlen := 6, cookie := DHCP_MAGIC } rfl).addOption
      (checkOption_addable hcheck) hcheck

/-- Its header. -/
theorem initHeader_eq (type : UInt8) :
    ∃ options, dhcpInitHeader type =
      { Packet.zero with
        op := if type = DHCPOFFER ∨ type = DHCPACK ∨ type = DHCPNAK then BOOTREPLY else BOOTREQUEST
        htype := 1, hlen := 6, cookie := DHCP_MAGIC, options := options } := by
  have hcheck : checkOption DHCP_MESSAGE_TYPE [type].length = true := rfl
  unfold dhcpInitHeader
  simp only [dhcpAddOptionUint8, addOption, if_pos hcheck]
  obtain ⟨options, heq⟩ := addBinaryOption_rest
    { (if type = DHCPOFFER ∨ type = DHCPACK ∨ type = DHCPNAK then
        { Packet.zero with op := BOOTREPLY } else { Packet.zero with op := BOOTREQUEST }) with
      htype := 1, hlen := 6, cookie := DHCP_MAGIC,
      options := Octets.write Packet.zero.options 0 [DHCP_END] }
    ⟨DHCP_MESSAGE_TYPE, [type]⟩
  refine ⟨options, ?_⟩
  split_ifs at heq ⊢ with htype <;> exact heq

/-! ### Reading them back -/

theorem place_mem {pos : Nat} {o : Found} (h : o ∈ place pos os) : o.item ∈ os := by
  induction os generalizing pos with
  | nil => cases h
  | cons o' os ih =>
      rcases List.mem_cons.mp h with rfl | h
      · exact List.mem_cons_self
      · exact List.mem_cons_of_mem _ (ih h)

theorem find_place (pos : Nat) (os : List Item) (code : UInt8) :
    (os.find? (fun o => o.code == code) = none ∧
        (place pos os).find? (fun o => o.item.code == code) = none) ∨
      ∃ o q, os.find? (fun o => o.code == code) = some o ∧
        (place pos os).find? (fun o => o.item.code == code) = some ⟨q, o⟩ := by
  induction os generalizing pos with
  | nil => exact Or.inl ⟨rfl, rfl⟩
  | cons o os ih =>
      by_cases hc : (o.code == code) = true
      · refine Or.inr ⟨o, pos, ?_, ?_⟩
        · rw [List.find?_cons, hc]
        · rw [place, List.find?_cons, hc]
      · rw [Bool.not_eq_true] at hc
        simpa only [place, List.find?_cons, hc] using ih (pos + 2 + o.data.length)

/-- **Reading an option back.**  `dhcp_get_option` finds the first option of its code, and nothing
if there is none. -/
theorem Built.get (h : Built p os) (behind : Nat → UInt8) (code : UInt8) :
    match os.find? (fun o => o.code == code) with
    | none   => dhcpGetOption (p.memory behind) code = some none
    | some o => ∃ a, dhcpGetOption (p.memory behind) code = some (some a) ∧
        Spells (p.memory behind) (a - 2) o.bytes ∧ 2 ≤ a := by
  obtain ⟨rest, hrest⟩ := h.options
  have hparse : Tlv.parse DHCP_PADDING DHCP_END Field.options.base (Field.options.bytes p) =
      (place 240 os, .fin (240 + (encode os).length)) := by
    show Tlv.parse DHCP_PADDING DHCP_END 240 p.options.1 = _
    rw [hrest]
    exact Tlv.parse_encode (by decide) fun o ho => (h.addable o ho).fits
  have hbody : Stop.body (p.memory behind) p code .options =
      .inr (((place 240 os).find? (fun o => o.item.code == code)).map (·.pos + 2)) := by
    have hplain : gather (p.memory behind) 0 (place 240 os) = 0 := by
      exact gather_plain fun o ho => (h.addable _ (place_mem ho)).not_overload
    rw [Stop.body, show Stop.options.field = .options from rfl, hparse, fieldEnd]
    dsimp only
    rw [hplain]
    rcases hfind : (place 240 os).find? (fun o => o.item.code == code) with - | o <;>
      rw [hfind] <;> rfl
  have hget : dhcpGetOption (p.memory behind) code =
      some (((place 240 os).find? (fun o => o.item.code == code)).map (·.pos + 2)) := by
    rw [getOption_eq, Loop.iterate_inr hbody]
  rcases find_place 240 os code with ⟨hnone, hplace⟩ | ⟨o, q, hsome, hplace⟩
  · rw [hnone]
    dsimp only
    rw [hget, hplace]
    rfl
  · rw [hsome]
    dsimp only
    refine ⟨q + 2, ?_, ?_, by omega⟩
    · rw [hget, hplace]
      rfl
    · have hmem : (⟨q, o⟩ : Found) ∈ (Tlv.parse DHCP_PADDING DHCP_END Field.options.base
          (Field.options.bytes p)).1 := by
        rw [hparse]
        exact List.mem_of_find?_eq_some hplace
      exact (spells_field p behind .options).found hmem

end OpenWfd.Dhcp
