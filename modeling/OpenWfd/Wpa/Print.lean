import OpenWfd.Wpa.Names
import OpenWfd.Wpa.Words

/-!
# Wpa — parsing undoes printing

For each type with a payload, the tokens that tell it (`Tells`): the mandatory ones in the order the
parser expects, others where it skips them and after it has all it needs.  A message of words with
these values is accepted by `owfd_wpa_event_parse` and read back as it was meant (`parse_print`).
-/

namespace OpenWfd.Wpa

/-! ### MAC addresses -/

/-- One or two hexadecimal digits. -/
def HexGroup (g : List UInt8) : Prop :=
  (g.length = 1 ∨ g.length = 2) ∧ ∀ c ∈ g, isXDigit c = true

/-- Groups with colons between them. -/
def joinGroups : List (List UInt8) → List UInt8
  | []      => []
  | [g]     => g
  | g :: gs => g ++ COLON :: joinGroups gs

theorem joinGroups_cons_cons (g g' : List UInt8) (gs : List (List UInt8)) :
    joinGroups (g :: g' :: gs) = g ++ COLON :: joinGroups (g' :: gs) := rfl

/-- A MAC address as it is written. -/
structure MacText where
  groups : List (List UInt8)
  six : groups.length = 6
  hex : ∀ g ∈ groups, HexGroup g

def MacText.text (m : MacText) : List UInt8 := joinGroups m.groups

theorem xdigit_facts {c : UInt8} (h : isXDigit c = true) :
    isSpace c = false ∧ c ≠ 43 ∧ c ≠ 45 ∧ c ≠ 120 ∧ c ≠ 88 ∧ c ≠ COLON := by
  refine ⟨?_, ?_, ?_, ?_, ?_, ?_⟩
  · by_contra hs
    simp only [isXDigit, isDigit, Bool.or_eq_true, Bool.and_eq_true, decide_eq_true_eq,
      UInt8.le_iff_toNat_le] at h
    simp only [isSpace, Bool.not_eq_false, Bool.or_eq_true, beq_iff_eq, Bool.and_eq_true,
      decide_eq_true_eq, UInt8.le_iff_toNat_le] at hs
    rcases hs with rfl | hs
    · exact absurd h (by decide)
    · have h₁ : (9 : UInt8).toNat = 9 := rfl
      have h₂ : (13 : UInt8).toNat = 13 := rfl
      have h₃ : (48 : UInt8).toNat = 48 := rfl
      have h₄ : (65 : UInt8).toNat = 65 := rfl
      have h₅ : (97 : UInt8).toNat = 97 := rfl
      omega
  all_goals
    rintro rfl
    cases h

/-- A group is read up to the colon, or to the end. -/
theorem scanHex2_group {g s : List UInt8} (hg : HexGroup g) (hs : s = [] ∨ s.head? = some COLON) :
    scanHex2 (g ++ s) = some s := by
  obtain ⟨hlen, hx⟩ := hg
  rcases g with _ | ⟨a, _ | ⟨b, _ | ⟨c, g⟩⟩⟩
  · rcases hlen with h | h <;> cases h
  · have ha := hx a List.mem_cons_self
    obtain ⟨hsp, h43, h45, -⟩ := xdigit_facts ha
    unfold scanHex2
    rw [List.cons_append, List.dropWhile_cons_of_neg (by simp [hsp])]
    dsimp only
    rw [if_neg (not_or.mpr ⟨h43, h45⟩), if_pos ha]
    rcases s with _ | ⟨d, s⟩
    · rfl
    · have hd : d = COLON := by
        rcases hs with h | h
        · cases h
        · exact Option.some_inj.mp h
      subst hd
      dsimp only [List.nil_append]
      rw [if_neg (by rintro ⟨-, h | h⟩ <;> cases h), if_neg (by decide)]
  · have ha := hx a List.mem_cons_self
    have hb := hx b (List.mem_cons_of_mem _ List.mem_cons_self)
    obtain ⟨hsp, h43, h45, -⟩ := xdigit_facts ha
    obtain ⟨-, -, -, h120, h88, -⟩ := xdigit_facts hb
    unfold scanHex2
    rw [List.cons_append, List.dropWhile_cons_of_neg (by simp [hsp])]
    dsimp only [List.cons_append]
    rw [if_neg (not_or.mpr ⟨h43, h45⟩), if_pos ha, if_neg fun h => h.2.elim h120 h88, if_pos hb]
    rfl
  · simp only [List.length_cons] at hlen
    omega

theorem scanFields_groups {gs : List (List UInt8)} (h : ∀ g ∈ gs, HexGroup g) :
    scanFields gs.length (joinGroups gs) = gs.length := by
  induction gs with
  | nil => rfl
  | cons g gs ih =>
      have hg := h g List.mem_cons_self
      have hgs : ∀ g ∈ gs, HexGroup g := fun g hg => h g (List.mem_cons_of_mem _ hg)
      rcases gs with _ | ⟨g', gs⟩
      · have hscan := scanHex2_group (s := []) hg (Or.inl rfl)
        rw [List.append_nil] at hscan
        simp [joinGroups, scanFields, hscan]
      · have hscan := scanHex2_group (s := COLON :: joinGroups (g' :: gs)) hg (Or.inr rfl)
        rw [List.length_cons, joinGroups_cons_cons, scanFields, hscan]
        dsimp only
        rw [if_pos rfl, ih hgs, Nat.add_comm]

theorem joinGroups_length {gs : List (List UInt8)} (h : ∀ g ∈ gs, HexGroup g) :
    (joinGroups gs).length ≤ 3 * gs.length - 1 := by
  induction gs with
  | nil => exact Nat.zero_le _
  | cons g gs ih =>
      have hg := (h g List.mem_cons_self).1
      have hgs := ih fun g hg => h g (List.mem_cons_of_mem _ hg)
      rcases gs with _ | ⟨g', gs⟩
      · simp only [joinGroups, List.length_singleton]
        omega
      · simp only [joinGroups, List.length_append, List.length_cons] at hgs ⊢
        omega

theorem joinGroups_clean {gs : List (List UInt8)} (h : ∀ g ∈ gs, HexGroup g) :
    NUL ∉ joinGroups gs := by
  have hgroup : ∀ g, HexGroup g → NUL ∉ g := by
    intro g hg hm
    exact absurd (hg.2 NUL hm) (by decide)
  induction gs with
  | nil => exact List.not_mem_nil
  | cons g gs ih =>
      have hg := hgroup g (h g List.mem_cons_self)
      have hgs := ih fun g hg => h g (List.mem_cons_of_mem _ hg)
      rcases gs with _ | ⟨g', gs⟩
      · exact hg
      · intro hm
        rcases List.mem_append.mp hm with hm | hm
        · exact hg hm
        · rcases List.mem_cons.mp hm with hm | hm
          · exact absurd hm (by decide)
          · exact hgs hm

/-- **A MAC is accepted**, and copied. -/
theorem parseMac_text (m : MacText) (buf : List UInt8) :
    ∃ mac, parseMac buf m.text = .ok mac ∧ cstr mac = m.text := by
  have hlen : m.text.length ≤ 17 := by
    have h := joinGroups_length m.hex
    rwa [m.six] at h
  have hscan : scanFields 6 m.text = 6 := by
    have h := scanFields_groups m.hex
    rwa [m.six] at h
  refine ⟨memcpy buf 0 (m.text ++ [NUL]), ?_, ?_⟩
  · unfold parseMac
    rw [if_neg (not_lt.mpr hlen), if_neg (not_not.mpr hscan)]
  · exact cstr_strcpy (joinGroups_clean m.hex) buf

/-! ### Payloads -/

/-- The types whose payload is a MAC alone. -/
def EventType.MacOnly : EventType → Prop
  | .apStaConnected      => True
  | .apStaDisconnected   => True
  | .p2pProvDiscEnterPin => True
  | .p2pProvDiscPbcReq   => True
  | .p2pProvDiscPbcResp  => True
  | _                    => False

/-- No token begins with the key. -/
def Free (key : List UInt8) (toks : List (List UInt8)) : Prop := ∀ tok ∈ toks, ¬ key <+: tok

/-- The tokens that tell a payload of a type: its MAC, role (`GO` where there is none) and
string. -/
inductive Tells :
    EventType → MacText → Role → Option (List UInt8) → List (List UInt8) → Prop where
  | macOnly {type : EventType} (h : type.MacOnly) (mac : MacText) (extra : List (List UInt8)) :
      Tells type mac .go none (mac.text :: extra)
  | deviceFound (mac : MacText) (name : List UInt8) {skipped : List (List UInt8)}
      (h : Free (str "name=") skipped) (extra : List (List UInt8)) :
      Tells .p2pDeviceFound mac .go (some name)
        (mac.text :: (skipped ++ (str "name=" ++ name) :: extra))
  | roleFirst (mac : MacText) (role : Role) {s₁ s₂ s₃ : List (List UInt8)}
      (hr : Free (str "role=") (s₁ ++ s₂ ++ s₃)) (hp : Free (str "peer_dev=") (s₁ ++ s₂ ++ s₃)) :
      Tells .p2pGoNegSuccess mac role none
        (s₁ ++ (str "role=" ++ role.text) :: (s₂ ++ (str "peer_dev=" ++ mac.text) :: s₃))
  | peerFirst (mac : MacText) (role : Role) {s₁ s₂ s₃ : List (List UInt8)}
      (hr : Free (str "role=") (s₁ ++ s₂ ++ s₃)) (hp : Free (str "peer_dev=") (s₁ ++ s₂ ++ s₃)) :
      Tells .p2pGoNegSuccess mac role none
        (s₁ ++ (str "peer_dev=" ++ mac.text) :: (s₂ ++ (str "role=" ++ role.text) :: s₃))
  | groupStarted (mac : MacText) (role : Role) (ifname : List UInt8)
      {skipped : List (List UInt8)} (h : Free (str "go_dev_addr=") skipped)
      (extra : List (List UInt8)) :
      Tells .p2pGroupStarted mac role (some ifname)
        (ifname :: role.text :: (skipped ++ (str "go_dev_addr=" ++ mac.text) :: extra))
  | showPin (mac : MacText) (pin : List UInt8) (extra : List (List UInt8)) :
      Tells .p2pProvDiscShowPin mac .go (some pin) (mac.text :: pin :: extra)

/-- The payload has this MAC, this role and this string. -/
structure Payload.Says (p : Payload) (mac : MacText) (role : Role) (s : Option (List UInt8)) :
    Prop where
  mac : cstr p.mac = mac.text
  role : p.role = role
  ptr : p.ptr.map Block.bytes = s.map (· ++ [NUL])

section

variable {tokens : List UInt8} {toks : List (List UInt8)} {h : Heap}

theorem findName_tells {skipped extra : List (List UInt8)} {name : List UInt8}
    (hfree : Free (str "name=") skipped)
    (hb : Begins tokens (skipped ++ (str "name=" ++ name) :: extra)) (w : h.Willing) (p : Payload) :
    ∃ b h', findName (skipped ++ (str "name=" ++ name) :: extra).length tokens p h =
      (.ok (), { p with ptr := some b }, h') ∧ b.bytes = name ++ [NUL] := by
  induction skipped generalizing tokens with
  | nil =>
      obtain ⟨b, h', hs, hbytes, -⟩ := w.strdup name
      have hkey : strncmp (str "name=" ++ name) (str "name=") 5 = 0 :=
        (strncmp_key rfl (by decide)).mpr (List.prefix_append _ _)
      refine ⟨b, h', ?_, hbytes⟩
      rw [List.nil_append] at hb ⊢
      rw [List.length_cons, findName, hb.cstr, if_neg (not_not.mpr hkey),
        hb.cstr_drop (k := 5) (by simp [str]),
        show (str "name=" ++ name).drop 5 = name from rfl, hs]
  | cons tok skipped ih =>
      have hkey : strncmp tok (str "name=") 5 ≠ 0 := by
        intro hz
        exact hfree tok List.mem_cons_self
          ((strncmp_key rfl (by decide)).mp hz)
      rw [List.cons_append] at hb ⊢
      rw [List.length_cons, findName, hb.cstr, if_pos hkey]
      exact ih (fun t ht => hfree t (List.mem_cons_of_mem _ ht)) hb.next

theorem findGoDevAddr_tells {skipped extra : List (List UInt8)} (mac : MacText)
    (hfree : Free (str "go_dev_addr=") skipped)
    (hb : Begins tokens (skipped ++ (str "go_dev_addr=" ++ mac.text) :: extra)) (p : Payload) :
    ∃ m, findGoDevAddr (skipped ++ (str "go_dev_addr=" ++ mac.text) :: extra).length tokens p =
      (.ok (), { p with mac := m }) ∧ cstr m = mac.text := by
  induction skipped generalizing tokens with
  | nil =>
      obtain ⟨m, hm, hc⟩ := parseMac_text mac p.mac
      have hkey : strncmp (str "go_dev_addr=" ++ mac.text) (str "go_dev_addr=") 12 = 0 :=
        (strncmp_key rfl (by decide)).mpr (List.prefix_append _ _)
      refine ⟨m, ?_, hc⟩
      rw [List.nil_append] at hb ⊢
      rw [List.length_cons, findGoDevAddr, hb.cstr, if_neg (not_not.mpr hkey),
        hb.cstr_drop (k := 12) (by simp [str]),
        show (str "go_dev_addr=" ++ mac.text).drop 12 = mac.text from rfl, hm]
  | cons tok skipped ih =>
      have hkey : strncmp tok (str "go_dev_addr=") 12 ≠ 0 := by
        intro hz
        exact hfree tok List.mem_cons_self
          ((strncmp_key rfl (by decide)).mp hz)
      rw [List.cons_append] at hb ⊢
      rw [List.length_cons, findGoDevAddr, hb.cstr, if_pos hkey]
      exact ih (fun t ht => hfree t (List.mem_cons_of_mem _ ht)) hb.next

/-- Other tokens are skipped. -/
theorem goNegLoop_skip {skipped : List (List UInt8)} (hr : Free (str "role=") skipped)
    (hp : Free (str "peer_dev=") skipped) (hb : Begins tokens (skipped ++ toks)) :
    ∃ tokens', Begins tokens' toks ∧ ∀ hasRole hasPeer p,
      goNegLoop (skipped ++ toks).length tokens hasRole hasPeer p =
        goNegLoop toks.length tokens' hasRole hasPeer p := by
  induction skipped generalizing tokens with
  | nil => exact ⟨tokens, hb, fun _ _ _ => rfl⟩
  | cons tok skipped ih =>
      have hrole : strncmp tok (str "role=") 5 ≠ 0 := by
        intro hz
        exact hr tok List.mem_cons_self ((strncmp_key rfl (by decide)).mp hz)
      have hpeer : strncmp tok (str "peer_dev=") 9 ≠ 0 := by
        intro hz
        exact hp tok List.mem_cons_self
          ((strncmp_key rfl (by decide)).mp hz)
      rw [List.cons_append] at hb
      obtain ⟨tokens', hb', heq⟩ := ih (fun t ht => hr t (List.mem_cons_of_mem _ ht))
        (fun t ht => hp t (List.mem_cons_of_mem _ ht)) hb.next
      refine ⟨tokens', hb', ?_⟩
      intro hasRole hasPeer p
      rw [List.cons_append, List.length_cons, goNegLoop, hb.cstr, if_neg hrole, if_neg hpeer, heq]

theorem goNegLoop_role {role : Role} (hb : Begins tokens ((str "role=" ++ role.text) :: toks))
    (hasRole hasPeer : Bool) (p : Payload) :
    goNegLoop ((str "role=" ++ role.text) :: toks).length tokens hasRole hasPeer p =
      goNegLoop toks.length (nextToken tokens) true hasPeer { p with role } := by
  have hkey : strncmp (str "role=" ++ role.text) (str "role=") 5 = 0 :=
    (strncmp_key rfl (by decide)).mpr (List.prefix_append _ _)
  have hrole : roleOf role.text = some role := roleOf_eq_some.mpr rfl
  rw [List.length_cons, goNegLoop, hb.cstr, if_pos hkey, hb.cstr_drop (k := 5) (by simp [str]),
    show (str "role=" ++ role.text).drop 5 = role.text from rfl, hrole]

theorem goNegLoop_peer (mac : MacText) (hb : Begins tokens ((str "peer_dev=" ++ mac.text) :: toks))
    (hasRole hasPeer : Bool) (p : Payload) :
    ∃ m, cstr m = mac.text ∧
      goNegLoop ((str "peer_dev=" ++ mac.text) :: toks).length tokens hasRole hasPeer p =
        goNegLoop toks.length (nextToken tokens) hasRole true { p with mac := m } := by
  obtain ⟨m, hm, hc⟩ := parseMac_text mac p.mac
  have hkey : strncmp (str "peer_dev=" ++ mac.text) (str "peer_dev=") 9 = 0 :=
    (strncmp_key rfl (by decide)).mpr (List.prefix_append _ _)
  have hrole : strncmp (str "peer_dev=" ++ mac.text) (str "role=") 5 ≠ 0 := by
    intro hz
    have hpre := (strncmp_key rfl (by decide)).mp hz
    exact absurd (List.cons_prefix_cons.mp hpre).1 (by decide)
  refine ⟨m, hc, ?_⟩
  rw [List.length_cons, goNegLoop, hb.cstr, if_neg hrole, if_pos hkey,
    hb.cstr_drop (k := 9) (by simp [str]),
    show (str "peer_dev=" ++ mac.text).drop 9 = mac.text from rfl, hm]

theorem goNegLoop_roleFirst {mac : MacText} {role : Role} {s₁ s₂ s₃ : List (List UInt8)}
    (hr : Free (str "role=") (s₁ ++ s₂ ++ s₃)) (hp : Free (str "peer_dev=") (s₁ ++ s₂ ++ s₃))
    (hb : Begins tokens
      (s₁ ++ (str "role=" ++ role.text) :: (s₂ ++ (str "peer_dev=" ++ mac.text) :: s₃)))
    (p : Payload) :
    ∃ m, cstr m = mac.text ∧
      goNegLoop (s₁ ++ (str "role=" ++ role.text) ::
        (s₂ ++ (str "peer_dev=" ++ mac.text) :: s₃)).length tokens false false p =
          (.ok (), { p with role, mac := m }) := by
  simp only [Free, List.mem_append, or_imp, forall_and] at hr hp
  obtain ⟨t₁, hb₁, h₁⟩ := goNegLoop_skip hr.1.1 hp.1.1 hb
  obtain ⟨t₂, hb₂, h₂⟩ := goNegLoop_skip hr.1.2 hp.1.2 hb₁.next
  obtain ⟨m, hm, hpeer⟩ := goNegLoop_peer mac hb₂ true false { p with role }
  have hb₃ : Begins (nextToken t₂) (s₃ ++ []) := by
    rw [List.append_nil]
    exact hb₂.next
  obtain ⟨t₃, -, h₃⟩ := goNegLoop_skip hr.2 hp.2 hb₃
  rw [List.append_nil] at h₃
  refine ⟨m, hm, ?_⟩
  rw [h₁, goNegLoop_role hb₁, h₂, hpeer, h₃]
  rfl

theorem goNegLoop_peerFirst {mac : MacText} {role : Role} {s₁ s₂ s₃ : List (List UInt8)}
    (hr : Free (str "role=") (s₁ ++ s₂ ++ s₃)) (hp : Free (str "peer_dev=") (s₁ ++ s₂ ++ s₃))
    (hb : Begins tokens
      (s₁ ++ (str "peer_dev=" ++ mac.text) :: (s₂ ++ (str "role=" ++ role.text) :: s₃)))
    (p : Payload) :
    ∃ m, cstr m = mac.text ∧
      goNegLoop (s₁ ++ (str "peer_dev=" ++ mac.text) ::
        (s₂ ++ (str "role=" ++ role.text) :: s₃)).length tokens false false p =
          (.ok (), { p with role, mac := m }) := by
  simp only [Free, List.mem_append, or_imp, forall_and] at hr hp
  obtain ⟨t₁, hb₁, h₁⟩ := goNegLoop_skip hr.1.1 hp.1.1 hb
  obtain ⟨m, hm, hpeer⟩ := goNegLoop_peer mac hb₁ false false p
  obtain ⟨t₂, hb₂, h₂⟩ := goNegLoop_skip hr.1.2 hp.1.2 hb₁.next
  have hb₃ : Begins (nextToken t₂) (s₃ ++ []) := by
    rw [List.append_nil]
    exact hb₂.next
  obtain ⟨t₃, -, h₃⟩ := goNegLoop_skip hr.2 hp.2 hb₃
  rw [List.append_nil] at h₃
  refine ⟨m, hm, ?_⟩
  rw [h₁, hpeer, h₂, goNegLoop_role hb₂, h₃]
  rfl

/-- A payload that is a MAC alone is read. -/
theorem parseMacOnly_tells {mac : MacText} {extra : List (List UInt8)}
    (hb : Begins tokens (mac.text :: extra)) :
    ∃ p, parseMacOnly .zero tokens (mac.text :: extra).length h = (.ok (), p, h) ∧
      p.Says mac .go none := by
  obtain ⟨m, hm, hc⟩ := parseMac_text mac Payload.zero.mac
  refine ⟨{ Payload.zero with mac := m }, ?_, hc, rfl, rfl⟩
  have hnum : ¬ (mac.text :: extra).length < 1 := by simp
  unfold parseMacOnly
  rw [if_neg hnum, hb.cstr, hm]

/-- **What the tokens tell is what the parser of the payload reads.** -/
theorem parsePayload_tells {type : EventType} {mac : MacText} {role : Role}
    {s : Option (List UInt8)} (ht : Tells type mac role s toks) (hb : Begins tokens toks)
    (w : h.Willing) :
    ∃ p h', parsePayload type .zero tokens toks.length h = (.ok (), p, h') ∧ p.Says mac role s := by
  cases ht with
  | macOnly hm mac extra =>
      obtain ⟨p, hp, hs⟩ := parseMacOnly_tells (h := h) hb
      cases type with
      | apStaConnected => exact ⟨p, h, hp, hs⟩
      | apStaDisconnected => exact ⟨p, h, hp, hs⟩
      | p2pProvDiscEnterPin => exact ⟨p, h, hp, hs⟩
      | p2pProvDiscPbcReq => exact ⟨p, h, hp, hs⟩
      | p2pProvDiscPbcResp => exact ⟨p, h, hp, hs⟩
      | _ => exact hm.elim
  | deviceFound mac name hfree extra =>
      obtain ⟨m, hm, hc⟩ := parseMac_text mac Payload.zero.mac
      obtain ⟨b, h', hf, hbytes⟩ := findName_tells hfree hb.next w { Payload.zero with mac := m }
      refine ⟨{ Payload.zero with mac := m, ptr := some b }, h', ?_, hc, rfl, by simp [hbytes]⟩
      unfold parsePayload parseP2pDeviceFound
      dsimp only
      rw [if_neg (by simp only [List.length_cons, List.length_append]; omega), hb.cstr, hm]
      exact hf
  | roleFirst mac role hr hp =>
      obtain ⟨m, hc, hl⟩ := goNegLoop_roleFirst hr hp hb .zero
      refine ⟨{ Payload.zero with role, mac := m }, h, ?_, hc, rfl, rfl⟩
      unfold parsePayload parseP2pGoNegSuccess
      dsimp only
      rw [if_neg (by simp only [List.length_cons, List.length_append]; omega), hl]
  | peerFirst mac role hr hp =>
      obtain ⟨m, hc, hl⟩ := goNegLoop_peerFirst hr hp hb .zero
      refine ⟨{ Payload.zero with role, mac := m }, h, ?_, hc, rfl, rfl⟩
      unfold parsePayload parseP2pGoNegSuccess
      dsimp only
      rw [if_neg (by simp only [List.length_cons, List.length_append]; omega), hl]
  | groupStarted mac role ifname hfree extra =>
      obtain ⟨b, h', hs, hbytes, -⟩ := w.strdup ifname
      obtain ⟨m, hf, hc⟩ := findGoDevAddr_tells mac hfree hb.next.next
        { Payload.zero with role, ptr := some b }
      refine ⟨{ Payload.zero with role, mac := m, ptr := some b }, h', ?_, hc, rfl,
        by simp [hbytes]⟩
      unfold parsePayload parseP2pGroupStarted
      dsimp only
      rw [if_neg (by simp only [List.length_cons, List.length_append]; omega), hb.cstr, hs]
      dsimp only
      rw [hb.next.cstr, roleOf_eq_some.mpr rfl]
      exact congrArg (fun r : Except Errno Unit × Payload => (r.1, r.2, h')) hf
  | showPin mac pin extra =>
      obtain ⟨m, hm, hc⟩ := parseMac_text mac Payload.zero.mac
      obtain ⟨b, h', hs, hbytes, -⟩ := w.strdup pin
      refine ⟨{ Payload.zero with mac := m, ptr := some b }, h', ?_, hc, rfl, by simp [hbytes]⟩
      unfold parsePayload parseP2pProvDiscShowPin
      dsimp only
      rw [if_neg (by simp only [List.length_cons]; omega), hb.cstr, hm]
      dsimp only
      rw [hb.next.cstr, hs]

end

/-! ### Messages -/

/-- `<d>`, the name, at least one space, and the words. -/
def message (d : Nat) (name : List UInt8) (k : Nat) (w : Word) (ws : List (Gap × Word)) :
    List UInt8 :=
  LT :: UInt8.ofNat (48 + d) :: GT :: (name ++ List.replicate (k + 1) SP ++ render w ws)

/-- A digit before the `'>'` is the priority. -/
theorem parsePriority_digit {d : Nat} (hd : d < pCount) (t : List UInt8) :
    parsePriority (LT :: UInt8.ofNat (48 + d) :: GT :: t) = (d, some t) := by
  have hcases : d = 0 ∨ d = 1 ∨ d = 2 ∨ d = 3 ∨ d = 4 := by
    simp only [pCount] at hd
    omega
  have hnum : strtoul (UInt8.ofNat (48 + d) :: GT :: t) = (d, GT :: t) := by
    rcases hcases with rfl | rfl | rfl | rfl | rfl <;> rfl
  have hdrop : (LT :: UInt8.ofNat (48 + d) :: GT :: t).dropWhile (fun c => decide (c ≠ GT)) =
      GT :: t := by
    rcases hcases with rfl | rfl | rfl | rfl | rfl <;> rfl
  have hsign : (UInt8.ofNat (48 + d) :: GT :: t).head? ≠ some 61 ∧
      (UInt8.ofNat (48 + d) :: GT :: t).head? ≠ some 45 := by
    rcases hcases with rfl | rfl | rfl | rfl | rfl <;> exact ⟨by simp, by simp⟩
  have hmod : d % 2 ^ 32 = d := Nat.mod_eq_of_lt (lt_trans hd (by decide))
  unfold parsePriority
  dsimp only
  rw [if_pos rfl, hdrop, hnum]
  dsimp only
  rw [hmod, if_neg]
  rintro (hbig | hend | hbad | hbad)
  · exact absurd hd (not_lt.mpr hbig)
  · exact hend rfl
  · exact hsign.1 hbad
  · exact hsign.2 hbad

/-- The name of a message is found, and what follows the spaces is the words. -/
theorem message_named (code : EventName) (k : Nat) (w : Word) (ws : List (Gap × Word)) :
    Named code (code.name ++ List.replicate (k + 1) SP ++ render w ws) ∧
      ((code.name ++ List.replicate (k + 1) SP ++ render w ws).drop code.name.length).dropWhile
        (fun c => decide (c = SP)) = render w ws := by
  rw [List.append_assoc]
  refine ⟨⟨List.prefix_append _ _, ?_⟩, ?_⟩
  · intro c hc
    rw [List.drop_left, List.replicate_succ] at hc
    exact (Option.some_inj.mp hc).symm
  · rw [List.drop_left, List.dropWhile_append_of_pos]
    · have hhead : (render w ws).head? ≠ some SP := w.head_ne _
      rcases hr : render w ws with _ | ⟨c, rest⟩
      · rfl
      · rw [hr] at hhead
        refine List.dropWhile_cons_of_neg ?_
        intro hc
        exact hhead (congrArg some (of_decide_eq_true hc))
    · intro c hc
      exact decide_eq_true (List.eq_of_mem_replicate hc)

theorem reset_willing {h : Heap} (w : h.Willing) (ev : Event) : (reset ev h).2.Willing := by
  have hraw := w.free ev.raw
  unfold reset
  cases ev.type <;> first | exact hraw.free ev.p.ptr | exact hraw

/-- **Parsing undoes printing.**  A message whose words tell a payload is accepted, with memory, and
yields its type, priority, MAC, role and string. -/
theorem parse_print {type : EventType} {mac : MacText} {role : Role} {s : Option (List UInt8)}
    {toks : List (List UInt8)} (ht : Tells type mac role s toks) {code : EventName}
    (hcode : code ∈ eventList) (htype : code.code = type) {d : Nat} (hd : d < pCount) (k : Nat)
    (w : Word) (ws : List (Gap × Word)) (hw : w.value :: ws.map (fun gw => gw.2.value) = toks)
    (ev : Event) {h : Heap} (hh : h.Willing) :
    ∃ ev' h', parse ev (message d code.name k w ws) h = (.ok (), ev', h') ∧ ev'.type = type ∧
      ev'.priority = d ∧ ev'.p.Says mac role s := by
  subst htype
  obtain ⟨hnamed, hbody⟩ := message_named code k w ws
  have hfound := bsearch_eq_some_iff.mpr ⟨hcode, hnamed⟩
  have hreset := reset_willing hh ev
  obtain ⟨raw, h₁, hs, hraw, w₁⟩ := hreset.strdup (render w ws)
  obtain ⟨b, num, h₂, hk, w₂⟩ := tokenize_willing w₁ (render w ws)
  obtain ⟨rfl, hbegin⟩ := tokenize_begins (render_clean w ws) hk
  rw [splitTokens_render, hw] at hbegin
  obtain ⟨p, h₃, hp, hsays⟩ := parsePayload_tells ht hbegin w₂
  have hcstr : cstr raw.bytes = render w ws := by
    rw [hraw]
    exact cstr_append (render_clean w ws)
  refine ⟨⟨code.code, d, some raw, p⟩, h₃.free (some b), ?_, rfl, rfl, hsays⟩
  unfold parse message
  dsimp only
  rw [parsePriority_digit hd]
  dsimp only
  rw [hfound]
  dsimp only
  unfold parseNamed
  dsimp only
  rw [hbody, hs]
  dsimp only
  rw [hcstr, hk, splitTokens_render, hw]
  dsimp only
  rw [show (reset ev h).1.p = .zero from rfl, hp]

/-- `<3>P2P-DEVICE-FOUND '0:1:2:3:4:5' '' name='a\'b'`, with a tab and a newline between tokens. -/
theorem parse_print_quoted :
    ∃ ev h, parse .zero (str "<3>P2P-DEVICE-FOUND  '0:1:2:3:4:5'\t''\n name='a\\'b'") (.fresh []) =
      (.ok (), ev, h) ∧ ev.type = .p2pDeviceFound ∧ ev.priority = 3 ∧
        cstr ev.p.mac = str "0:1:2:3:4:5" ∧
        ev.p.ptr.map Block.bytes = some (str "a'b" ++ [NUL]) := by
  have hhex : ∀ g ∈ [[48], [49], [50], [51], [52], [(53 : UInt8)]], HexGroup g := by
    simp [HexGroup, isXDigit, isDigit]
  have hfree : Free (str "name=") [[]] := by simp [Free, str]
  have hcode : ⟨str "P2P-DEVICE-FOUND", .p2pDeviceFound⟩ ∈ eventList := by simp [eventList]
  obtain ⟨ev, h, hp, htype, hd, hsays⟩ := parse_print
    (.deviceFound ⟨_, rfl, hhex⟩ (str "a'b") hfree []) hcode rfl (d := 3) (by decide) 1
    (.quote ⟨str "0:1:2:3:4:5", by decide⟩)
    [(⟨[TAB], by simp [isBlank]⟩, .quote ⟨[], by decide⟩),
      (⟨[LF, SP], by simp [isBlank]⟩, .keyed ⟨110, by decide⟩
        [⟨97, by decide⟩, ⟨109, by decide⟩, ⟨101, by decide⟩, ⟨61, by decide⟩]
        ⟨str "a'b", by decide⟩)]
    (by simp only [Word.value_quote, Word.value_keyed, List.map, MacText.text, joinGroups]; decide)
    .zero Heap.willing_fresh
  exact ⟨ev, h, hp, htype, hd, hsays.mac, hsays.ptr⟩

end OpenWfd.Wpa
