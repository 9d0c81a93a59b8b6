import OpenWfd.Wpa.Kinds
import OpenWfd.Wpa.Print

/-!
# Wpa — what is stored as a MAC

`parse_mac` copies a token that `sscanf` reads six hexadecimal fields of.  `sscanf` skips blanks
before a field, takes a sign or a `0x` for part of it, and leaves what follows the sixth one unread,
so other texts than MAC addresses are stored too.  The payload parsers pass it a whole token, or
what follows a key in one (`macText`); `mac_iff` says for which texts what is stored is a MAC
address.
-/

namespace OpenWfd.Wpa

/-! ### MAC addresses -/

/-- Six groups of one or two hexadecimal digits, with colons between them. -/
def IsMac (s : List UInt8) : Prop := ∃ m : MacText, s = m.text

/-- What follows the last colon, backwards. -/
def afterLast (s : List UInt8) : List UInt8 := s.reverse.takeWhile (· ≠ COLON)

/-- Nothing but digits and five colons, and no third digit after the last colon. -/
structure Tidy (s : List UInt8) : Prop where
  bytes : ∀ c ∈ s, isXDigit c = true ∨ c = COLON
  colons : s.count COLON = 5
  last : (afterLast s).length ≤ 2

instance (s : List UInt8) : Decidable (Tidy s) :=
  decidable_of_iff (s.all (fun c => isXDigit c || c = COLON) = true ∧ s.count COLON = 5 ∧
      (afterLast s).length ≤ 2) <| by
    simp only [List.all_eq_true, Bool.or_eq_true, decide_eq_true_eq]
    exact ⟨fun h => ⟨h.1, h.2.1, h.2.2⟩, fun h => ⟨h.bytes, h.colons, h.last⟩⟩

/-- What `parse_mac` accepts. -/
def Scanned (s : List UInt8) : Prop := s.length ≤ 17 ∧ scanFields 6 s = 6

instance (s : List UInt8) : Decidable (Scanned s) := inferInstanceAs (Decidable (_ ∧ _))

theorem afterLast_append (g s : List UInt8) : afterLast (g ++ COLON :: s) = afterLast s := by
  have hstop := takeWhile_stop (p := fun c : UInt8 => decide (c ≠ COLON)) (c := COLON) (by simp)
    s.reverse g.reverse
  rw [afterLast, List.reverse_append, List.reverse_cons, List.append_assoc]
  exact hstop

theorem afterLast_length_le (s : List UInt8) : (afterLast s).length ≤ s.length := by
  have h := (List.takeWhile_sublist (l := s.reverse) fun c => decide (c ≠ COLON)).length_le
  rwa [List.length_reverse] at h

theorem afterLast_eq {s : List UInt8} (h : COLON ∉ s) : (afterLast s).length = s.length := by
  have hall : ∀ c ∈ s.reverse, decide (c ≠ COLON) = true := by
    intro c hc
    exact decide_eq_true fun e => h (e ▸ List.mem_reverse.mp hc)
  rw [afterLast, List.takeWhile_eq_self_iff.mpr hall, List.length_reverse]

theorem HexGroup.no_colon {g : List UInt8} (h : HexGroup g) : COLON ∉ g := by
  intro hm
  exact absurd (h.2 COLON hm) (by decide)

/-- Groups are tidy. -/
theorem joinGroups_tidy {gs : List (List UInt8)} (h : ∀ g ∈ gs, HexGroup g) (hne : gs ≠ []) :
    (∀ c ∈ joinGroups gs, isXDigit c = true ∨ c = COLON) ∧
      (joinGroups gs).count COLON + 1 = gs.length ∧ (afterLast (joinGroups gs)).length ≤ 2 := by
  induction gs with
  | nil => exact absurd rfl hne
  | cons g gs ih =>
      have hg := h g List.mem_cons_self
      have hcount := List.count_eq_zero.mpr hg.no_colon
      rcases gs with _ | ⟨g', gs⟩
      · refine ⟨fun c hc => Or.inl (hg.2 c hc), ?_, ?_⟩
        · exact congrArg (· + 1) hcount
        · refine (afterLast_length_le g).trans ?_
          rcases hg.1 with hlen | hlen
          · exact hlen.le.trans (Nat.le_succ 1)
          · exact hlen.le
      · obtain ⟨hbytes, hcolons, hlast⟩ :=
          ih (fun g hg => h g (List.mem_cons_of_mem _ hg)) (List.cons_ne_nil _ _)
        rw [joinGroups_cons_cons]
        refine ⟨?_, ?_, ?_⟩
        · intro c hc
          rcases List.mem_append.mp hc with hc | hc
          · exact Or.inl (hg.2 c hc)
          · rcases List.mem_cons.mp hc with hc | hc
            · exact Or.inr hc
            · exact hbytes c hc
        · rw [List.count_append, List.count_cons_self, hcount, Nat.zero_add, hcolons]
          rfl
        · rw [afterLast_append]
          exact hlast

/-- A field of digits is read as one or two of them. -/
theorem scanHex2_digits {s r : List UInt8} (hs : ∀ c ∈ s, isXDigit c = true ∨ c = COLON)
    (h : scanHex2 s = some r) : ∃ g, HexGroup g ∧ s = g ++ r := by
  rcases s with _ | ⟨a, s⟩
  · cases h
  have ha : isXDigit a = true ∨ a = COLON := hs a List.mem_cons_self
  rcases ha with ha | rfl
  · obtain ⟨hsp, h43, h45, -⟩ := xdigit_facts ha
    unfold scanHex2 at h
    rw [List.dropWhile_cons_of_neg (by simp [hsp])] at h
    dsimp only at h
    rw [if_neg (not_or.mpr ⟨h43, h45⟩), if_pos ha] at h
    rcases s with _ | ⟨b, s⟩
    · cases h
      exact ⟨[a], ⟨Or.inl rfl, List.forall_mem_singleton.mpr ha⟩, rfl⟩
    · dsimp only at h
      split_ifs at h with hx hb
      · cases h
        refine ⟨[a, b], ⟨Or.inr rfl, ?_⟩, rfl⟩
        exact List.forall_mem_cons.mpr ⟨ha, List.forall_mem_singleton.mpr hb⟩
      · cases h
        exact ⟨[a], ⟨Or.inl rfl, List.forall_mem_singleton.mpr ha⟩, rfl⟩
  · cases h

/-- A tidy text whose fields were all read is made of groups. -/
theorem groups_of_scanFields {n : Nat} {s : List UInt8} (hscan : scanFields (n + 1) s = n + 1)
    (hbytes : ∀ c ∈ s, isXDigit c = true ∨ c = COLON) (hcolons : s.count COLON = n)
    (hlast : (afterLast s).length ≤ 2) :
    ∃ gs, gs.length = n + 1 ∧ (∀ g ∈ gs, HexGroup g) ∧ s = joinGroups gs := by
  induction n generalizing s with
  | zero =>
      have hno : COLON ∉ s := List.count_eq_zero.mp hcolons
      have hne : s ≠ [] := by
        rintro rfl
        cases hscan
      have hpos := List.length_pos_iff.mpr hne
      rw [afterLast_eq hno] at hlast
      refine ⟨[s], rfl, List.forall_mem_singleton.mpr ⟨by omega, ?_⟩, rfl⟩
      intro c hc
      exact (hbytes c hc).resolve_right fun e => hno (e ▸ hc)
  | succ n ih =>
      rw [scanFields] at hscan
      rcases hx : scanHex2 s with _ | _ | ⟨c, r⟩ <;> simp only [hx] at hscan
      · cases hscan
      · omega
      · split_ifs at hscan with hc
        · subst hc
          obtain ⟨g, hg, rfl⟩ := scanHex2_digits hbytes hx
          have hbytes' : ∀ c ∈ r, isXDigit c = true ∨ c = COLON := by
            intro c hc
            exact hbytes c (List.mem_append_right _ (List.mem_cons_of_mem _ hc))
          have hcolons' : r.count COLON = n := by
            rw [List.count_append, List.count_cons_self, List.count_eq_zero.mpr hg.no_colon]
              at hcolons
            omega
          rw [afterLast_append] at hlast
          obtain ⟨gs, hlen, hgs, rfl⟩ := ih (by omega) hbytes' hcolons' hlast
          refine ⟨g :: gs, by rw [List.length_cons, hlen], ?_, ?_⟩
          · exact List.forall_mem_cons.mpr ⟨hg, hgs⟩
          · rcases gs with _ | ⟨g', gs⟩
            · cases hlen
            · rfl
        · omega

/-- **Of what is accepted**, the tidy texts are the MAC addresses. -/
theorem isMac_iff_tidy {s : List UInt8} (h : Scanned s) : IsMac s ↔ Tidy s := by
  constructor
  · rintro ⟨m, rfl⟩
    have hne : m.groups ≠ [] := List.ne_nil_of_length_eq_add_one m.six
    obtain ⟨hbytes, hcolons, hlast⟩ := joinGroups_tidy m.hex hne
    rw [m.six] at hcolons
    exact ⟨hbytes, Nat.add_right_cancel hcolons, hlast⟩
  · rintro ⟨hbytes, hcolons, hlast⟩
    obtain ⟨gs, hlen, hgs, rfl⟩ := groups_of_scanFields h.2 hbytes hcolons hlast
    exact ⟨⟨gs, hlen, hgs⟩, rfl⟩

/-! ### Payloads -/

/-- The types whose payload has a MAC. -/
def EventType.HasMac : EventType → Prop
  | .apStaConnected      => True
  | .apStaDisconnected   => True
  | .p2pDeviceFound      => True
  | .p2pGoNegSuccess     => True
  | .p2pGroupStarted     => True
  | .p2pProvDiscShowPin  => True
  | .p2pProvDiscEnterPin => True
  | .p2pProvDiscPbcReq   => True
  | .p2pProvDiscPbcResp  => True
  | _                    => False

/-- What follows the key in the first token that begins with it. -/
def firstValue (key : List UInt8) (toks : List (List UInt8)) : Option (List UInt8) :=
  (toks.find? fun tok => key.isPrefixOf tok).map fun tok => tok.drop key.length

/-- What follows the key in the last token that begins with it. -/
def lastValue (key : List UInt8) (toks : List (List UInt8)) : Option (List UInt8) :=
  firstValue key toks.reverse

/-- The text that is told as the MAC. -/
def macToken (type : EventType) (toks : List (List UInt8)) : Option (List UInt8) :=
  match type with
  | .p2pGoNegSuccess => lastValue (str "peer_dev=") toks
  | .p2pGroupStarted => firstValue (str "go_dev_addr=") (toks.drop 2)
  | _                => toks.head?

theorem firstValue_cons (key tok : List UInt8) (toks : List (List UInt8)) :
    firstValue key (tok :: toks) =
      if key <+: tok then some (tok.drop key.length) else firstValue key toks := by
  unfold firstValue
  by_cases h : key <+: tok
  · rw [List.find?_cons_of_pos (List.isPrefixOf_iff_prefix.mpr h), if_pos h]
    rfl
  · rw [List.find?_cons_of_neg fun e => h (List.isPrefixOf_iff_prefix.mp e), if_neg h]

theorem lastValue_cons (key tok : List UInt8) (toks : List (List UInt8)) :
    lastValue key (tok :: toks) =
      (lastValue key toks).or (if key <+: tok then some (tok.drop key.length) else none) := by
  have hone := firstValue_cons key tok []
  unfold lastValue
  rw [show (if key <+: tok then some (tok.drop key.length) else none) = firstValue key [tok] from
    hone.symm]
  unfold firstValue
  rw [List.reverse_cons, List.find?_append]
  rcases toks.reverse.find? (fun tok => key.isPrefixOf tok) with _ | t
  · rfl
  · rfl

section

variable {tokens : List UInt8} {toks : List (List UInt8)} {n : Nat} {p p' : Payload} {h h' : Heap}

theorem parseMac_ok {buf src mac : List UInt8} (hsrc : NUL ∉ src)
    (e : parseMac buf src = .ok mac) : cstr mac = src ∧ Scanned src := by
  unfold parseMac at e
  split_ifs at e with hlen hscan
  cases e
  exact ⟨cstr_strcpy hsrc buf, not_lt.mp hlen, not_not.mp hscan⟩

theorem parseMacOnly_ok (hb : Begins tokens toks)
    (e : parseMacOnly p tokens toks.length h = (.ok (), p', h')) :
    toks.head? = some (cstr p'.mac) ∧ Scanned (cstr p'.mac) := by
  unfold parseMacOnly at e
  split_ifs at e with hnum
  · cases e
  rcases toks with _ | ⟨tok, toks⟩
  · exact absurd Nat.zero_lt_one hnum
  rw [hb.cstr] at e
  rcases hm : parseMac p.mac tok with x | mac <;> simp only [hm] at e <;> cases e
  obtain ⟨hc, hs⟩ := parseMac_ok (hb.clean tok List.mem_cons_self) hm
  rw [hc]
  exact ⟨rfl, hs⟩

/-- The name is not the MAC. -/
theorem findName_mac : (findName n tokens p h).2.1.mac = p.mac := by
  induction n generalizing tokens with
  | zero => rfl
  | succ n ih =>
      unfold findName
      split_ifs
      · exact ih
      · rcases h.strdup (cstr (tokens.drop 5)) with ⟨_ | name, h₁⟩ <;> rfl

theorem parseP2pDeviceFound_ok (hb : Begins tokens toks)
    (e : parseP2pDeviceFound p tokens toks.length h = (.ok (), p', h')) :
    toks.head? = some (cstr p'.mac) ∧ Scanned (cstr p'.mac) := by
  unfold parseP2pDeviceFound at e
  split_ifs at e with hnum
  · cases e
  rcases toks with _ | ⟨tok, toks⟩
  · exact absurd Nat.zero_lt_two hnum
  rw [hb.cstr] at e
  rcases hm : parseMac p.mac tok with x | mac <;> simp only [hm] at e
  · cases e
  · have hmac := @findName_mac (nextToken tokens) ((tok :: toks).length - 1) { p with mac } h
    rw [e] at hmac
    obtain ⟨hc, hs⟩ := parseMac_ok (hb.clean tok List.mem_cons_self) hm
    rw [show p'.mac = mac from hmac, hc]
    exact ⟨rfl, hs⟩

theorem parseP2pProvDiscShowPin_ok (hb : Begins tokens toks)
    (e : parseP2pProvDiscShowPin p tokens toks.length h = (.ok (), p', h')) :
    toks.head? = some (cstr p'.mac) ∧ Scanned (cstr p'.mac) := by
  unfold parseP2pProvDiscShowPin at e
  split_ifs at e with hnum
  · cases e
  rcases toks with _ | ⟨tok, toks⟩
  · exact absurd Nat.zero_lt_two hnum
  rw [hb.cstr] at e
  rcases hm : parseMac p.mac tok with x | mac <;> simp only [hm] at e
  · cases e
  · rcases hs : h.strdup (cstr (nextToken tokens)) with ⟨_ | pin, h₁⟩ <;> simp only [hs] at e <;>
      cases e
    obtain ⟨hc, hs⟩ := parseMac_ok (hb.clean tok List.mem_cons_self) hm
    rw [hc]
    exact ⟨rfl, hs⟩

/-- The last peer that was read is the one that stays. -/
theorem goNegLoop_ok {hasRole hasPeer : Bool} (hb : Begins tokens toks)
    (hmac : hasPeer = true → Scanned (cstr p.mac))
    (e : goNegLoop toks.length tokens hasRole hasPeer p = (.ok (), p')) :
    Scanned (cstr p'.mac) ∧ (lastValue (str "peer_dev=") toks = some (cstr p'.mac) ∨
      lastValue (str "peer_dev=") toks = none ∧ p'.mac = p.mac ∧ hasPeer = true) := by
  induction toks generalizing tokens hasRole hasPeer p with
  | nil =>
      simp only [List.length_nil, goNegLoop] at e
      have hboth : (hasRole && hasPeer) = true := by
        by_contra hno
        rw [if_neg hno] at e
        cases e
      rw [if_pos hboth] at e
      cases e
      rw [Bool.and_eq_true] at hboth
      exact ⟨hmac hboth.2, Or.inr ⟨rfl, rfl, hboth.2⟩⟩
  | cons tok toks ih =>
      have hrole := @strncmp_key tok (str "role=") 5 rfl (by decide)
      have hpeer := @strncmp_key tok (str "peer_dev=") 9 rfl (by decide)
      simp only [List.length_cons, goNegLoop, hb.cstr, hrole, hpeer] at e
      rw [lastValue_cons]
      by_cases h₁ : str "role=" <+: tok
      · rw [if_pos h₁] at e
        have hno : ¬ str "peer_dev=" <+: tok := by
          obtain ⟨val, rfl⟩ := h₁
          intro h₂
          exact absurd (List.cons_prefix_cons.mp h₂).1 (by decide)
        rcases hro : roleOf (cstr (tokens.drop 5)) with _ | role <;> simp only [hro] at e
        · cases e
        · rw [if_neg hno, Option.or_none]
          exact ih (p := { p with role }) hb.next hmac e
      rw [if_neg h₁] at e
      by_cases h₂ : str "peer_dev=" <+: tok
      · have hlong : 9 ≤ tok.length := h₂.length_le
        rw [if_pos h₂, hb.cstr_drop hlong] at e
        rcases hm : parseMac p.mac (tok.drop 9) with x | mac <;> simp only [hm] at e
        · cases e
        · have hclean : NUL ∉ tok.drop 9 := fun hn =>
            hb.clean tok List.mem_cons_self (List.mem_of_mem_drop hn)
          obtain ⟨hc, hs⟩ := parseMac_ok hclean hm
          have hscan : Scanned (cstr mac) := hc.symm ▸ hs
          obtain ⟨hs', hlast | ⟨hlast, hsame, -⟩⟩ :=
            ih (p := { p with mac }) hb.next (fun _ => hscan) e
          · refine ⟨hs', Or.inl ?_⟩
            rw [hlast]
            rfl
          · refine ⟨hs', Or.inl ?_⟩
            rw [hlast, if_pos h₂, hsame, hc]
            rfl
      · rw [if_neg h₂] at e
        rw [if_neg h₂, Option.or_none]
        exact ih hb.next hmac e

theorem findGoDevAddr_ok (hb : Begins tokens toks)
    (e : findGoDevAddr toks.length tokens p = (.ok (), p')) :
    firstValue (str "go_dev_addr=") toks = some (cstr p'.mac) ∧ Scanned (cstr p'.mac) := by
  induction toks generalizing tokens with
  | nil => cases e
  | cons tok toks ih =>
      have hkey := @strncmp_key tok (str "go_dev_addr=") 12 rfl (by decide)
      simp only [List.length_cons, findGoDevAddr, hb.cstr, ne_eq, hkey] at e
      rw [firstValue_cons]
      by_cases h : str "go_dev_addr=" <+: tok
      · have hlong : 12 ≤ tok.length := h.length_le
        rw [if_neg (not_not.mpr h), hb.cstr_drop hlong] at e
        rcases hm : parseMac p.mac (tok.drop 12) with x | mac <;> simp only [hm] at e <;> cases e
        have hclean : NUL ∉ tok.drop 12 := fun hn =>
          hb.clean tok List.mem_cons_self (List.mem_of_mem_drop hn)
        obtain ⟨hc, hs⟩ := parseMac_ok hclean hm
        rw [if_pos h, hc]
        exact ⟨rfl, hs⟩
      · rw [if_pos h] at e
        rw [if_neg h]
        exact ih hb.next e

theorem parseP2pGroupStarted_ok (hb : Begins tokens toks)
    (e : parseP2pGroupStarted p tokens toks.length h = (.ok (), p', h')) :
    firstValue (str "go_dev_addr=") (toks.drop 2) = some (cstr p'.mac) ∧
      Scanned (cstr p'.mac) := by
  unfold parseP2pGroupStarted at e
  split_ifs at e with hnum
  · cases e
  rcases toks with _ | ⟨tok₀, _ | ⟨tok₁, toks⟩⟩
  · exact absurd (Nat.zero_lt_succ 2) hnum
  · exact absurd (Nat.lt_add_of_pos_right (Nat.zero_lt_succ 1)) hnum
  rcases hs : h.strdup (cstr tokens) with ⟨_ | b, h₁⟩ <;> simp only [hs] at e
  · cases e
  rcases hro : roleOf (cstr (nextToken tokens)) with _ | role <;> simp only [hro] at e
  · cases e
  rcases hf : findGoDevAddr ((tok₀ :: tok₁ :: toks).length - 2) (nextToken (nextToken tokens))
    { p with ptr := some b, role } with ⟨r₁, p₁⟩
  simp only [hf] at e
  cases e
  exact findGoDevAddr_ok hb.next.next hf

/-- **Every payload with a MAC**: it is the text of a token, and `sscanf` read it. -/
theorem parsePayload_mac {type : EventType} (ht : type.HasMac) (hb : Begins tokens toks)
    (e : parsePayload type p tokens toks.length h = (.ok (), p', h')) :
    macToken type toks = some (cstr p'.mac) ∧ Scanned (cstr p'.mac) := by
  cases type with
  | apStaConnected => exact parseMacOnly_ok hb e
  | apStaDisconnected => exact parseMacOnly_ok hb e
  | p2pDeviceFound => exact parseP2pDeviceFound_ok hb e
  | p2pGoNegSuccess =>
      unfold parsePayload parseP2pGoNegSuccess at e
      dsimp only at e
      split_ifs at e
      · cases e
      rcases hl : goNegLoop toks.length tokens false false p with ⟨r₁, p₁⟩
      simp only [hl] at e
      cases e
      obtain ⟨hs, hlast | ⟨-, -, hno⟩⟩ := goNegLoop_ok hb (fun h => by cases h) hl
      · exact ⟨hlast, hs⟩
      · cases hno
  | p2pGroupStarted => exact parseP2pGroupStarted_ok hb e
  | p2pProvDiscShowPin => exact parseP2pProvDiscShowPin_ok hb e
  | p2pProvDiscEnterPin => exact parseMacOnly_ok hb e
  | p2pProvDiscPbcReq => exact parseMacOnly_ok hb e
  | p2pProvDiscPbcResp => exact parseMacOnly_ok hb e
  | _ => exact ht.elim

end

/-! ### The event -/

/-- The tokens of an event: those of the text after the name and its spaces. -/
def tokensOf (event : List UInt8) : List (List UInt8) :=
  splitTokens (((afterPriority event).dropWhile (· ≠ SP)).dropWhile (· = SP))

/-- The type of an event, from its text. -/
def typeOf (event : List UInt8) : EventType :=
  match bsearch (eventComp (afterPriority event)) eventList with
  | none   => .unknown
  | some t => t.code

/-- The text that an event tells as the MAC. -/
def macText (event : List UInt8) : Option (List UInt8) := macToken (typeOf event) (tokensOf event)

theorem drop_name {t : EventName} (ht : t ∈ eventList) {text : List UInt8} (hn : Named t text) :
    text.drop t.name.length = text.dropWhile (· ≠ SP) := by
  have hname := (named_iff_firstWord ht text).mp hn
  have hsplit := List.takeWhile_append_dropWhile (p := fun c : UInt8 => decide (c ≠ SP)) (l := text)
  have hdrop := congrArg (List.drop t.name.length) hsplit
  rw [show text.takeWhile (fun c : UInt8 => decide (c ≠ SP)) = t.name from hname.symm,
    List.drop_left] at hdrop
  exact hdrop.symm

/-- **What is stored** is the text that is told as the MAC, and `sscanf` read it. -/
theorem parse_mac {event : List UInt8} (hnul : NUL ∉ event) {ev ev' : Event} {h h' : Heap}
    (e : parse ev event h = (.ok (), ev', h')) (ht : ev'.type.HasMac) :
    macText event = some (cstr ev'.p.mac) ∧ Scanned (cstr ev'.p.mac) := by
  rcases parse_cases e with ⟨-, -, rfl, -⟩ | ⟨t, htext, code, hcode, hn, e⟩
  · exact ht.elim
  have hafter := parsePriority_spec htext
  have hclean := nul_not_mem_after hafter hnul
  rw [macText, typeOf, tokensOf, afterPriority_eq hafter, bsearch_eq_some_iff.mpr ⟨hcode, hn⟩]
  obtain ⟨raw, h₁, tokens, num, h₂, p, h₃, hs, hk, hpl, rfl, rfl⟩ := parseNamed_ok e
  have hbody : NUL ∉ (t.drop code.name.length).dropWhile (· = SP) := by
    intro hm
    exact hclean (List.mem_of_mem_drop ((List.dropWhile_sublist _).subset hm))
  rw [Heap.strdup_cstr hbody hs] at hk
  obtain ⟨rfl, hbegin⟩ := tokenize_begins hbody hk
  rw [← drop_name hcode hn]
  exact parsePayload_mac ht hbegin hpl

/-- **Only MAC addresses are stored as MAC addresses**, exactly if the text that is told as the MAC
is tidy: no byte but digits and colons, five colons, and no third digit after the last one. -/
theorem mac_iff (event : CStr) {ev ev' : Event} {h h' : Heap}
    (e : parse ev event h = (.ok (), ev', h')) (ht : ev'.type.HasMac) :
    IsMac (cstr ev'.p.mac) ↔ ∃ s, macText event = some s ∧ Tidy s := by
  obtain ⟨hmac, hs⟩ := parse_mac event.2 e ht
  rw [isMac_iff_tidy hs]
  constructor
  · intro htidy
    exact ⟨_, hmac, htidy⟩
  · rintro ⟨s, hs', htidy⟩
    rw [hmac] at hs'
    rwa [Option.some.inj hs']

/-- Of two peers the later one is stored. -/
theorem mac_iff_tidy :
    let event := str "P2P-GO-NEG-SUCCESS peer_dev=-1:2:3:4:5:6 role=GO peer_dev=0:1:2:a:B:ff"
    IsMac (cstr (parse .zero event (.fresh [])).2.1.p.mac) := by
  intro event
  have hnul : NUL ∉ event := by decide +kernel
  have hread : macText event = some (str "0:1:2:a:B:ff") := by decide +kernel
  obtain ⟨hok, htype⟩ : (parse .zero event (.fresh [])).1 = .ok () ∧
      (parse .zero event (.fresh [])).2.1.type = .p2pGoNegSuccess := by
    decide +kernel
  clear_value event
  have hp : parse .zero event (.fresh []) = (.ok (), _, _) := Prod.ext hok rfl
  have hmac : (parse .zero event (.fresh [])).2.1.type.HasMac := by
    rw [htype]
    exact trivial
  exact (mac_iff ⟨event, hnul⟩ hp hmac).mpr ⟨_, hread, by decide +kernel⟩

/-- `AP-STA-CONNECTED 1:2:3:4:5:6zzz`: nothing looks at what follows the sixth field. -/
theorem mac_stored : ¬ ∀ (event : CStr) (ev ev' : Event) (h h' : Heap),
    parse ev event h = (.ok (), ev', h') → ev'.type.HasMac → IsMac (cstr ev'.p.mac) := by
  intro hall
  obtain ⟨event, heq⟩ : ∃ event, event = str "AP-STA-CONNECTED 1:2:3:4:5:6zzz" := ⟨_, rfl⟩
  obtain ⟨hnul, hok, htype, hscan, hno⟩ : NUL ∉ event ∧ (parse .zero event (.fresh [])).1 = .ok () ∧
      (parse .zero event (.fresh [])).2.1.type = .apStaConnected ∧
      Scanned (cstr (parse .zero event (.fresh [])).2.1.p.mac) ∧
      ¬ Tidy (cstr (parse .zero event (.fresh [])).2.1.p.mac) := by
    rw [heq]
    decide +kernel
  have hmac := hall ⟨event, hnul⟩ .zero _ (.fresh []) _ (Prod.ext hok rfl)
    (by rw [htype]; exact trivial)
  exact hno ((isMac_iff_tidy hscan).mp hmac)

end OpenWfd.Wpa
