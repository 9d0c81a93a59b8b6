import OpenWfd.Wpa.Names
import OpenWfd.Wpa.Tokens

/-!
# Wpa — a complete event or nothing

Whatever text `owfd_wpa_event_parse` is given, and whichever allocations fail, it leaves an unknown
event, an event with every field of its payload filled, or nothing (`parse_complete`).  The blocks
it leaves are the ones `owfd_wpa_event_reset` frees, so no sequence of calls leaks a block or frees
one twice.
-/

namespace OpenWfd.Wpa

/-! ### Payloads -/

/-- The types whose payload has a pointer. -/
def EventType.HasPointer : EventType → Prop
  | .p2pDeviceFound     => True
  | .p2pGroupStarted    => True
  | .p2pProvDiscShowPin => True
  | _                   => False

/-- A string that is not empty and ends within the array. -/
def MacSet (mac : List UInt8) : Prop := mac.length = macStrlen ∧ NUL ∈ mac ∧ cstr mac ≠ []

/-- Every field of the member the type selects is filled, the role from one of the tokens. -/
def Filled (type : EventType) (toks : List (List UInt8)) (p : Payload) : Prop :=
  match type with
  | .apStaConnected      => MacSet p.mac
  | .apStaDisconnected   => MacSet p.mac
  | .p2pDeviceFound      => MacSet p.mac ∧ p.ptr ≠ none
  | .p2pGoNegSuccess     => MacSet p.mac ∧ str "role=" ++ p.role.text ∈ toks
  | .p2pGroupStarted     => MacSet p.mac ∧ p.role.text ∈ toks ∧ p.ptr ≠ none
  | .p2pProvDiscShowPin  => MacSet p.mac ∧ p.ptr ≠ none
  | .p2pProvDiscEnterPin => MacSet p.mac
  | .p2pProvDiscPbcReq   => MacSet p.mac
  | .p2pProvDiscPbcResp  => MacSet p.mac
  | _                    => p = .zero

/-- The blocks of a pointer. -/
def blockIds (p : Option Block) : List Nat := (p.map Block.id).toList

/-- A MAC that is accepted is copied. -/
theorem parseMac_spec {buf src mac : List UInt8} (hbuf : buf.length = macStrlen) (hsrc : NUL ∉ src)
    (e : parseMac buf src = .ok mac) : MacSet mac ∧ cstr mac = src := by
  unfold parseMac at e
  split_ifs at e with hlen hscan
  cases e
  have hne : src ≠ [] := by
    rintro rfl
    exact hscan (by decide)
  have heq : memcpy buf 0 (src ++ [NUL]) = src ++ NUL :: buf.drop (src.length + 1) := by
    simp [memcpy]
  have hc : cstr (memcpy buf 0 (src ++ [NUL])) = src := cstr_strcpy hsrc buf
  refine ⟨⟨?_, ?_, by rw [hc]; exact hne⟩, hc⟩
  · have hroom : 0 + (src ++ [NUL]).length ≤ buf.length := by
      rw [List.length_append, List.length_singleton, hbuf, macStrlen]
      omega
    rw [memcpy_length hroom, hbuf]
  · rw [heq]
    exact List.mem_append_right _ List.mem_cons_self

section

variable {tokens : List UInt8} {toks : List (List UInt8)} {n : Nat} {p p' : Payload} {h h' : Heap}
  {ids : List Nat} {r : Except Errno Unit}

theorem findName_spec (hh : h.Holds ids) (hp : p.ptr = none)
    (e : findName n tokens p h = (r, p', h')) :
    p'.mac = p.mac ∧ h'.Holds (blockIds p'.ptr ++ ids) ∧ (r = .ok () → p'.ptr ≠ none) := by
  induction n generalizing tokens with
  | zero =>
      cases e
      refine ⟨rfl, ?_, fun h => by cases h⟩
      rw [hp]
      exact hh
  | succ n ih =>
      unfold findName at e
      split_ifs at e
      · exact ih e
      · rcases hs : h.strdup (cstr (tokens.drop 5)) with ⟨_ | b, h₁⟩ <;> simp only [hs] at e <;>
          cases e <;> rcases Heap.strdup_spec hh hs with ⟨hb, hh'⟩ | ⟨b', hb, -, hh'⟩ <;> cases hb
        · refine ⟨rfl, ?_, fun h => by cases h⟩
          rw [hp]
          exact hh'
        · exact ⟨rfl, hh', fun _ => by simp⟩

theorem goNegLoop_spec {all : List (List UInt8)} {hasRole hasPeer : Bool} (hb : Begins tokens toks)
    (hsub : toks ⊆ all) (hlen : p.mac.length = macStrlen)
    (hrole : hasRole = true → str "role=" ++ p.role.text ∈ all)
    (hmac : hasPeer = true → MacSet p.mac)
    (e : goNegLoop toks.length tokens hasRole hasPeer p = (r, p')) :
    p'.ptr = p.ptr ∧ (r = .ok () → MacSet p'.mac ∧ str "role=" ++ p'.role.text ∈ all) := by
  induction toks generalizing tokens hasRole hasPeer p with
  | nil =>
      simp only [List.length_nil, goNegLoop] at e
      cases e
      refine ⟨rfl, fun hr => ?_⟩
      split_ifs at hr with hboth
      rw [Bool.and_eq_true] at hboth
      exact ⟨hmac hboth.2, hrole hboth.1⟩
  | cons tok toks ih =>
      have htail : toks ⊆ all := fun t ht => hsub (List.mem_cons_of_mem _ ht)
      simp only [List.length_cons, goNegLoop, hb.cstr] at e
      split_ifs at e with h₁ h₂
      · obtain ⟨val, rfl⟩ := (strncmp_key rfl (by decide)).mp h₁
        rw [hb.cstr_drop (k := 5) (by simp [str]), show (str "role=" ++ val).drop 5 = val from rfl]
          at e
        rcases hro : roleOf val with _ | role <;> simp only [hro] at e
        · cases e
          exact ⟨rfl, fun hr => by cases hr⟩
        · rw [roleOf_eq_some.mp hro] at hsub
          exact ih (p := { p with role }) hb.next htail hlen (fun _ => hsub List.mem_cons_self)
            hmac e
      · rcases hm : parseMac p.mac (cstr (tokens.drop 9)) with x | mac <;> simp only [hm] at e
        · cases e
          exact ⟨rfl, fun hr => by cases hr⟩
        · have hset := (parseMac_spec hlen (nul_not_mem_cstr _) hm).1
          exact ih (p := { p with mac }) hb.next htail hset.1 hrole (fun _ => hset) e
      · exact ih hb.next htail hlen hrole hmac e

theorem findGoDevAddr_spec (hlen : p.mac.length = macStrlen)
    (e : findGoDevAddr n tokens p = (r, p')) :
    p'.ptr = p.ptr ∧ p'.role = p.role ∧ (r = .ok () → MacSet p'.mac) := by
  induction n generalizing tokens with
  | zero =>
      cases e
      exact ⟨rfl, rfl, fun hr => by cases hr⟩
  | succ n ih =>
      unfold findGoDevAddr at e
      split_ifs at e
      · exact ih e
      · rcases hm : parseMac p.mac (cstr (tokens.drop 12)) with x | mac <;> simp only [hm] at e <;>
          cases e
        · exact ⟨rfl, rfl, fun hr => by cases hr⟩
        · exact ⟨rfl, rfl, fun _ => (parseMac_spec hlen (nul_not_mem_cstr _) hm).1⟩

/-- What the parser of a payload leaves: the blocks of the event, none but in a pointer of the type,
and every field filled if it succeeds. -/
structure Parsed (type : EventType) (toks : List (List UInt8)) (ids : List Nat)
    (r : Except Errno Unit) (p : Payload) (h : Heap) : Prop where
  holds : h.Holds (blockIds p.ptr ++ ids)
  pointer : p.ptr ≠ none → type.HasPointer
  filled : r = .ok () → Filled type toks p

theorem parseMacOnly_spec (e : parseMacOnly .zero tokens n h = (r, p', h')) :
    h' = h ∧ p'.ptr = none ∧ (r = .ok () → MacSet p'.mac) := by
  unfold parseMacOnly at e
  split_ifs at e
  · cases e
    exact ⟨rfl, rfl, fun hr => by cases hr⟩
  · rcases hm : parseMac Payload.zero.mac (cstr tokens) with x | mac <;>
      simp only [hm] at e <;> cases e
    · exact ⟨rfl, rfl, fun hr => by cases hr⟩
    · exact ⟨rfl, rfl, fun _ => (parseMac_spec rfl (nul_not_mem_cstr _) hm).1⟩

theorem parsed_macOnly {type : EventType} (hh : h.Holds ids)
    (hfill : ∀ p : Payload, MacSet p.mac → Filled type toks p)
    (e : parseMacOnly .zero tokens n h = (r, p', h')) : Parsed type toks ids r p' h' := by
  obtain ⟨rfl, hptr, hmac⟩ := parseMacOnly_spec e
  refine ⟨?_, fun hne => absurd hptr hne, fun hr => hfill p' (hmac hr)⟩
  rw [hptr]
  exact hh

theorem parsed_deviceFound (hh : h.Holds ids)
    (e : parseP2pDeviceFound .zero tokens n h = (r, p', h')) :
    Parsed .p2pDeviceFound toks ids r p' h' := by
  unfold parseP2pDeviceFound at e
  split_ifs at e
  · cases e
    exact ⟨hh, fun _ => trivial, fun hr => by cases hr⟩
  · rcases hm : parseMac Payload.zero.mac (cstr tokens) with x | mac <;> simp only [hm] at e
    · cases e
      exact ⟨hh, fun _ => trivial, fun hr => by cases hr⟩
    · obtain ⟨hmac, hholds, hptr⟩ := findName_spec hh rfl e
      have hset := (parseMac_spec rfl (nul_not_mem_cstr _) hm).1
      refine ⟨hholds, fun _ => trivial, fun hr => ⟨?_, hptr hr⟩⟩
      rw [hmac]
      exact hset

theorem parsed_goNegSuccess (hb : Begins tokens toks) (hh : h.Holds ids)
    (e : parseP2pGoNegSuccess .zero tokens toks.length h = (r, p', h')) :
    Parsed .p2pGoNegSuccess toks ids r p' h' := by
  unfold parseP2pGoNegSuccess at e
  split_ifs at e
  · cases e
    exact ⟨hh, fun hne => absurd rfl hne, fun hr => by cases hr⟩
  · rcases hl : goNegLoop toks.length tokens false false .zero with ⟨r₁, p₁⟩
    simp only [hl] at e
    cases e
    obtain ⟨hptr, hfill⟩ := goNegLoop_spec hb (List.Subset.refl toks) rfl
      (fun h => by cases h) (fun h => by cases h) hl
    refine ⟨?_, fun hne => absurd hptr hne, hfill⟩
    rw [hptr]
    exact hh

theorem parsed_groupStarted (hb : Begins tokens toks) (hh : h.Holds ids)
    (e : parseP2pGroupStarted .zero tokens toks.length h = (r, p', h')) :
    Parsed .p2pGroupStarted toks ids r p' h' := by
  unfold parseP2pGroupStarted at e
  split_ifs at e with hnum
  · cases e
    exact ⟨hh, fun _ => trivial, fun hr => by cases hr⟩
  · rcases hs : h.strdup (cstr tokens) with ⟨_ | b, h₁⟩ <;> simp only [hs] at e <;>
      rcases Heap.strdup_spec hh hs with ⟨hb', hh'⟩ | ⟨b', hb', -, hh'⟩ <;> cases hb'
    · cases e
      exact ⟨hh', fun _ => trivial, fun hr => by cases hr⟩
    · rcases toks with _ | ⟨tok₀, _ | ⟨tok₁, toks⟩⟩
      · exact absurd (Nat.zero_lt_succ 2) hnum
      · exact absurd (Nat.lt_add_of_pos_right (Nat.zero_lt_succ 1)) hnum
      rw [hb.next.cstr] at e
      rcases hro : roleOf tok₁ with _ | role <;> simp only [hro] at e
      · cases e
        exact ⟨hh', fun _ => trivial, fun hr => by cases hr⟩
      · rcases hf : findGoDevAddr ((tok₀ :: tok₁ :: toks).length - 2) (nextToken (nextToken tokens))
          { Payload.zero with ptr := some b, role } with ⟨r₁, p₁⟩
        simp only [hf] at e
        cases e
        obtain ⟨hptr, hrole, hmac⟩ := findGoDevAddr_spec rfl hf
        refine ⟨?_, fun _ => trivial, fun hr => ⟨hmac hr, ?_, ?_⟩⟩
        · rw [hptr]
          exact hh'
        · rw [hrole, ← roleOf_eq_some.mp hro]
          exact List.mem_cons_of_mem _ List.mem_cons_self
        · rw [hptr]
          exact Option.some_ne_none b

theorem parsed_showPin (hh : h.Holds ids)
    (e : parseP2pProvDiscShowPin .zero tokens n h = (r, p', h')) :
    Parsed .p2pProvDiscShowPin toks ids r p' h' := by
  unfold parseP2pProvDiscShowPin at e
  split_ifs at e
  · cases e
    exact ⟨hh, fun _ => trivial, fun hr => by cases hr⟩
  · rcases hm : parseMac Payload.zero.mac (cstr tokens) with x | mac <;> simp only [hm] at e
    · cases e
      exact ⟨hh, fun _ => trivial, fun hr => by cases hr⟩
    · rcases hs : h.strdup (cstr (nextToken tokens)) with ⟨_ | b, h₁⟩ <;> simp only [hs] at e <;>
        cases e <;> rcases Heap.strdup_spec hh hs with ⟨hb', hh'⟩ | ⟨b', hb', -, hh'⟩ <;> cases hb'
      · exact ⟨hh', fun _ => trivial, fun hr => by cases hr⟩
      · exact ⟨hh', fun _ => trivial,
          fun _ => ⟨(parseMac_spec rfl (nul_not_mem_cstr _) hm).1, Option.some_ne_none _⟩⟩

/-- **Every parser of a payload.** -/
theorem parsePayload_spec {type : EventType} (hb : Begins tokens toks) (hh : h.Holds ids)
    (e : parsePayload type .zero tokens toks.length h = (r, p', h')) :
    Parsed type toks ids r p' h' := by
  cases type with
  | apStaConnected => exact parsed_macOnly hh (fun _ hp => hp) e
  | apStaDisconnected => exact parsed_macOnly hh (fun _ hp => hp) e
  | p2pDeviceFound => exact parsed_deviceFound hh e
  | p2pGoNegSuccess => exact parsed_goNegSuccess hb hh e
  | p2pGroupStarted => exact parsed_groupStarted hb hh e
  | p2pProvDiscShowPin => exact parsed_showPin hh e
  | p2pProvDiscEnterPin => exact parsed_macOnly hh (fun _ hp => hp) e
  | p2pProvDiscPbcReq => exact parsed_macOnly hh (fun _ hp => hp) e
  | p2pProvDiscPbcResp => exact parsed_macOnly hh (fun _ hp => hp) e
  | _ =>
      cases e
      exact ⟨hh, fun hne => absurd rfl hne, fun _ => rfl⟩

end

/-! ### The event -/

/-- The event's blocks are the live ones, and its pointer is one that `owfd_wpa_event_reset`
frees. -/
structure Owns (ev : Event) (h : Heap) : Prop where
  holds : h.Holds (blockIds ev.p.ptr ++ blockIds ev.raw)
  pointer : ev.p.ptr ≠ none → ev.type.HasPointer

theorem owns_zero {h : Heap} (hh : h.Holds []) : Owns .zero h :=
  ⟨hh, fun hne => absurd rfl hne⟩

/-- **Resetting** frees every block of the event. -/
theorem reset_spec {ev : Event} {h : Heap} (o : Owns ev h) :
    (reset ev h).1 = .zero ∧ (reset ev h).2.Holds [] := by
  refine ⟨rfl, ?_⟩
  have hraw : (h.free ev.raw).Holds (blockIds ev.p.ptr) := by
    have hh := o.holds
    rcases hr : ev.raw with _ | b <;> rw [hr] at hh
    · rwa [show blockIds none = [] from rfl, List.append_nil] at hh
    · have hf : (h.free (some b)).Holds (blockIds ev.p.ptr ++ []) := Heap.free_spec hh
      rwa [List.append_nil] at hf
  have hptr : ((h.free ev.raw).free ev.p.ptr).Holds [] := by
    rcases hp : ev.p.ptr with _ | b <;> rw [hp] at hraw
    · exact hraw
    · have hhead : (h.free ev.raw).Holds ([] ++ b.id :: []) := hraw
      exact Heap.free_spec hhead
  have hnone : ¬ ev.type.HasPointer → (h.free ev.raw).Holds [] := by
    intro hno
    have hp : ev.p.ptr = none := by
      by_contra hne
      exact hno (o.pointer hne)
    rwa [hp] at hraw
  unfold reset
  cases ht : ev.type <;> rw [ht] at hnone <;> first | exact hptr | exact hnone id

/-- The text after the priority: all of it, or what follows the first `'>'` after a `'<'`. -/
def AfterPriority (event t : List UInt8) : Prop :=
  (event.head? ≠ some LT ∧ t = event) ∨ ∃ w, GT ∉ w ∧ event = LT :: w ++ GT :: t

theorem parsePriority_spec {event t : List UInt8} (h : (parsePriority event).2 = some t) :
    AfterPriority event t := by
  unfold parsePriority at h
  rcases event with _ | ⟨c, rest⟩
  · cases h
    exact Or.inl ⟨by simp, rfl⟩
  · dsimp only at h
    by_cases hc : c = LT
    · subst hc
      have hsplit :=
        List.takeWhile_append_dropWhile (p := fun c : UInt8 => decide (c ≠ GT)) (l := rest)
      rw [if_pos rfl, List.dropWhile_cons_of_pos (by decide)] at h
      rcases hd : rest.dropWhile (fun c : UInt8 => decide (c ≠ GT)) with _ | ⟨g, t'⟩ <;>
        simp only [hd] at h <;> cases h
      have hg : g = GT := by
        have hnot := List.head?_dropWhile_not (fun c : UInt8 => decide (c ≠ GT)) rest
        rw [hd] at hnot
        simpa using hnot
      subst hg
      refine Or.inr ⟨rest.takeWhile (fun c : UInt8 => decide (c ≠ GT)), ?_, ?_⟩
      · intro hmem
        have := List.mem_takeWhile_imp hmem
        simp at this
      · rw [List.cons_append, ← hd, hsplit]
    · rw [if_neg hc] at h
      cases h
      exact Or.inl ⟨by simpa using hc, rfl⟩

theorem parsePriority_lt (event : List UInt8) : (parsePriority event).1 < pCount := by
  have hz : pMsgdump < pCount := by decide
  unfold parsePriority
  rcases event with _ | ⟨c, rest⟩
  · exact hz
  · dsimp only
    split_ifs
    · rcases (c :: rest).dropWhile (fun c : UInt8 => decide (c ≠ GT)) with _ | ⟨g, t⟩
      · exact hz
      · dsimp only
        split_ifs with hbad
        · exact hz
        · exact not_le.mp fun hge => hbad (Or.inl hge)
    · exact hz

/-- A known event with all that was said: the name and some spaces, then `body` to the end. -/
structure Said (event : List UInt8) (ev : Event) (code : EventName) (spaces body : List UInt8)
    (raw : Block) : Prop where
  known : code ∈ eventList
  type : ev.type = code.code
  text : AfterPriority event (code.name ++ spaces ++ body)
  gap : ∀ c ∈ spaces, c = SP
  gap_end : body.head? ≠ some SP
  apart : spaces = [] → body = []
  raw_eq : ev.raw = some raw
  raw_bytes : raw.bytes = body ++ [NUL]
  filled : Filled ev.type (splitTokens body) ev.p

/-- `UNKNOWN`, no raw text, an all-zero payload. -/
def Unknown (ev : Event) : Prop := ev.type = .unknown ∧ ev.raw = none ∧ ev.p = .zero

/-- A known type, the raw text, and every field of the payload. -/
def Complete (event : List UInt8) (ev : Event) : Prop :=
  ev.type ≠ .unknown ∧ ∃ code spaces body raw, Said event ev code spaces body raw

/-- A name, the spaces after it, and the rest. -/
theorem named_split {code : EventName} {t : List UInt8} (hn : Named code t) :
    ∃ spaces, t = code.name ++ spaces ++ (t.drop code.name.length).dropWhile (· = SP) ∧
      (∀ c ∈ spaces, c = SP) ∧
      (spaces = [] → (t.drop code.name.length).dropWhile (· = SP) = []) := by
  obtain ⟨⟨rest, rfl⟩, hnext⟩ := hn
  rw [List.drop_left] at hnext ⊢
  refine ⟨rest.takeWhile (· = SP), ?_, ?_, ?_⟩
  · rw [List.append_assoc, List.takeWhile_append_dropWhile]
  · intro c hc
    simpa using List.mem_takeWhile_imp hc
  · intro hnil
    rcases rest with _ | ⟨c, rest⟩
    · rfl
    · have hc : c = SP := hnext c rfl
      rw [List.takeWhile_cons_of_pos (by simpa using hc)] at hnil
      cases hnil

theorem fail_spec {x : Errno} {ev ev' : Event} {h h' : Heap} {r : Except Errno Unit} (o : Owns ev h)
    (e : fail x ev h = (r, ev', h')) : r = .error x ∧ ev' = .zero ∧ Owns ev' h' := by
  obtain ⟨-, hh⟩ := reset_spec o
  cases e
  exact ⟨rfl, rfl, owns_zero hh⟩

theorem parseNamed_spec {code : EventName} {event t : List UInt8} {priority : Nat} {ev' : Event}
    {h h' : Heap} {r : Except Errno Unit} (hcode : code ∈ eventList) (hn : Named code t)
    (ht : AfterPriority event t) (hnul : NUL ∉ t) (hh : h.Holds [])
    (e : parseNamed code t { Event.zero with priority } h = (r, ev', h')) :
    ((r = .ok () ∧ Complete event ev' ∧ ev'.priority = priority) ∨
      (∃ x, r = .error x) ∧ ev' = .zero) ∧ Owns ev' h' := by
  obtain ⟨spaces, hsplit, hgap, hapart⟩ := named_split hn
  have hbody : NUL ∉ (t.drop code.name.length).dropWhile (· = SP) := by
    intro hm
    exact hnul (List.mem_of_mem_drop ((List.dropWhile_sublist _).subset hm))
  have hend : ((t.drop code.name.length).dropWhile (· = SP)).head? ≠ some SP := by
    intro hsp
    have hnot := List.head?_dropWhile_not (fun c : UInt8 => decide (c = SP))
      (t.drop code.name.length)
    rw [hsp] at hnot
    simp at hnot
  have hfail : ∀ {x : Errno} {ev : Event} {h : Heap}, Owns ev h → fail x ev h = (r, ev', h') →
      ((r = .ok () ∧ Complete event ev' ∧ ev'.priority = priority) ∨
        (∃ x, r = .error x) ∧ ev' = .zero) ∧ Owns ev' h' := by
    intro x ev h o e
    obtain ⟨hr, hz, o'⟩ := fail_spec o e
    exact ⟨Or.inr ⟨⟨x, hr⟩, hz⟩, o'⟩
  unfold parseNamed at e
  dsimp only at e
  generalize (t.drop code.name.length).dropWhile (· = SP) = body at *
  rcases hs : h.strdup body with ⟨_ | raw, h₁⟩ <;> simp only [hs] at e <;>
    rcases Heap.strdup_spec hh hs with ⟨hr, hh₁⟩ | ⟨raw', hr, hbytes, hh₁⟩ <;> cases hr
  · exact hfail ⟨hh₁, fun hne => absurd rfl hne⟩ e
  have hcstr : cstr raw.bytes = body := by
    rw [hbytes]
    exact cstr_append hbody
  rw [hcstr] at e
  rcases hk : tokenize body h₁ with ⟨_ | ⟨tokens, num⟩, h₂⟩ <;> simp only [hk] at e <;>
    rcases tokenize_holds hh₁ hk with ⟨hr, hh₂⟩ | ⟨b, num, hr, hh₂⟩ <;> cases hr
  · exact hfail ⟨hh₂, fun hne => absurd rfl hne⟩ e
  obtain ⟨rfl, hbegin⟩ := tokenize_begins hbody hk
  rcases hpl : parsePayload code.code .zero tokens.bytes (splitTokens body).length h₂ with
    ⟨x | _, p, h₃⟩
  all_goals
    have hparsed := parsePayload_spec hbegin hh₂ hpl
    have howns : Owns ⟨code.code, priority, some raw, p⟩ (h₃.free (some tokens)) :=
      ⟨Heap.free_spec hparsed.holds, hparsed.pointer⟩
    simp only [Event.zero, hpl] at e
  · exact hfail howns e
  · cases e
    refine ⟨Or.inl ⟨rfl, ⟨code_ne_unknown hcode, code, spaces, body, raw, ?_⟩, rfl⟩, howns⟩
    exact ⟨hcode, rfl, hsplit ▸ ht, hgap, hend, hapart, rfl, hbytes, hparsed.filled rfl⟩

/-- The text after the priority is part of the event. -/
theorem nul_not_mem_after {event t : List UInt8} (h : AfterPriority event t) (hnul : NUL ∉ event) :
    NUL ∉ t := by
  rcases h with ⟨-, rfl⟩ | ⟨w, -, rfl⟩
  · exact hnul
  · intro hm
    exact hnul (List.mem_append_right _ (List.mem_cons_of_mem _ hm))

/-- **One call of `owfd_wpa_event_parse`.** -/
theorem parse_spec {ev ev' : Event} {event : List UInt8} {h h' : Heap} {r : Except Errno Unit}
    (o : Owns ev h) (hnul : NUL ∉ event) (e : parse ev event h = (r, ev', h')) :
    ((r = .ok () ∧ Unknown ev') ∨ (r = .ok () ∧ Complete event ev') ∨
      ((∃ x, r = .error x) ∧ ev' = .zero)) ∧ ev'.priority < pCount ∧ Owns ev' h' := by
  obtain ⟨hz, hh⟩ := reset_spec o
  have hprio := parsePriority_lt event
  have hcases := parse_cases e
  rw [hz] at hcases
  rcases hcases with ⟨rfl, -, rfl, rfl⟩ | ⟨t, ht, code, hcode, hn, e⟩
  · exact ⟨Or.inl ⟨rfl, rfl, rfl, rfl⟩, hprio, ⟨hh, fun hne => absurd rfl hne⟩⟩
  · have hafter := parsePriority_spec ht
    obtain ⟨⟨hok, hc, hpr⟩ | ⟨hx, hzero⟩, o'⟩ := parseNamed_spec hcode hn hafter
      (nul_not_mem_after hafter hnul) hh e
    · exact ⟨Or.inr (Or.inl ⟨hok, hc⟩), hpr ▸ hprio, o'⟩
    · refine ⟨Or.inr (Or.inr ⟨hx, hzero⟩), ?_, o'⟩
      rw [hzero]
      exact Nat.zero_lt_succ 4

/-! ### Runs -/

theorem owns_run {answers : Allocs} {ls : List (EventOp × Except Errno Unit)} {s : Event × Heap}
    (run : eventLts.Run (.zero, .fresh answers) ls s) : Owns s.1 s.2 := by
  refine run.invariant (I := fun s => Owns s.1 s.2) (owns_zero (Heap.holds_fresh answers)) ?_
  rintro ⟨ev, h⟩ ⟨op, ans⟩ ⟨ev', h'⟩ o hstep
  cases op with
  | parse event => exact (parse_spec o event.2 hstep).2.2
  | reset =>
      obtain ⟨-, hh⟩ := reset_spec o
      cases hstep
      exact owns_zero hh

/-- Exactly one of three. -/
def ExactlyOne (a b c : Prop) : Prop := (a ∧ ¬b ∧ ¬c) ∨ (¬a ∧ b ∧ ¬c) ∨ (¬a ∧ ¬b ∧ c)

/-- **A complete event or nothing.**  After any calls on an event structure, whichever allocations
fail: a call returns 0 and leaves an unknown event, or returns 0 and leaves a complete one, or fails
and leaves nothing.  The priority is in range, and the event's blocks are the only ones live: the
raw text and the pointer that `owfd_wpa_event_reset` frees. -/
theorem parse_complete {answers : Allocs} {ls : List (EventOp × Except Errno Unit)} {ev ev' : Event}
    {h h' : Heap} (run : eventLts.Run (.zero, .fresh answers) ls (ev, h)) (event : CStr)
    {r : Except Errno Unit} (e : parse ev event h = (r, ev', h')) :
    ExactlyOne (r = .ok () ∧ Unknown ev') (r = .ok () ∧ Complete event ev')
      ((∃ x, r = .error x) ∧ ev' = .zero) ∧ ev'.priority < pCount ∧ Owns ev' h' := by
  obtain ⟨hcase, hprio, o⟩ := parse_spec (owns_run run) event.2 e
  refine ⟨?_, hprio, o⟩
  rcases hcase with ⟨rfl, hu⟩ | ⟨rfl, hc⟩ | ⟨⟨x, rfl⟩, hz⟩
  · exact Or.inl ⟨⟨rfl, hu⟩, fun hb => hb.2.1 hu.1, fun ⟨⟨x, hx⟩, _⟩ => by cases hx⟩
  · exact Or.inr (Or.inl ⟨fun ha => hc.1 ha.2.1, ⟨rfl, hc⟩, fun ⟨⟨x, hx⟩, _⟩ => by cases hx⟩)
  · exact Or.inr (Or.inr ⟨fun ha => (by cases ha.1), fun hb => (by cases hb.1), ⟨x, rfl⟩, hz⟩)

/-- A device is found, then a group is started whose MAC is missing. -/
theorem parse_complete_twice :
    let found := parse .zero (str "<4>P2P-DEVICE-FOUND 0:0:0:0:0:0 name=a") (.fresh [])
    let started := parse found.2.1 (str "P2P-GROUP-STARTED w GO 0:0") found.2.2
    found.1 = .ok () ∧ found.2.1.p.ptr = some ⟨2, str "a" ++ [NUL]⟩ ∧ started.1 = .error .EINVAL ∧
      started.2.1.priority < pCount ∧ started.2.2.live = [] := by
  have heta : ∀ x : Except Errno Unit × Event × Heap, x = (x.1, x.2.1, x.2.2) := fun _ => rfl
  have hrun := Lts.Run.one (M := eventLts) (s := (Event.zero, Heap.fresh []))
    (l := (.parse ⟨str "<4>P2P-DEVICE-FOUND 0:0:0:0:0:0 name=a", by decide⟩, _)) (heta _)
  have hc := parse_complete hrun ⟨str "P2P-GROUP-STARTED w GO 0:0", by decide⟩ (heta _)
  refine ⟨by decide +kernel, by decide +kernel, by decide +kernel, hc.2.1, ?_⟩
  exact hc.2.2.holds.live.trans (by decide +kernel)

end OpenWfd.Wpa
