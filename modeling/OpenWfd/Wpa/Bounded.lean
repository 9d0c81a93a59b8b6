import OpenWfd.Support.Access
import OpenWfd.Wpa.Marks

/-!
# Wpa — bounded

`tokenize` and the payload parsers over memory that ends: the functions of `Event.lean` once more,
but every byte that `tokenize` writes is written into its block, and every string that a parser
reads lies in the memory that it is given.  What leaves them has no result (`OpenWfd.Wpa.Bounded`).

* `tokenize_bounded`: `tokenize` stays inside its block.
* `parsePayload_bounded`: a parser that is told of `n` strings finds all it reads in these.
* `tokenize_reference`: with `splitTokens_eq`, what `tokenize` leaves to the parsers.
-/

namespace OpenWfd.Wpa

namespace Bounded

/-! ### The tokenizer -/

/-- The variables of `tokenize`, with the block that it fills. -/
structure Tok where
  buf : List UInt8
  dst : Nat
  lastC : UInt8
  n : Nat
  quoted : Bool
  escaped : Bool

/-- `*dst++ = c`. -/
def Tok.put (t : Tok) (c : UInt8) : Option Tok := do
  let buf ← store t.buf t.dst [c]
  some { t with buf, dst := t.dst + 1 }

/-- The body of the loop of `tokenize`. -/
def Tok.step (t : Tok) (c : UInt8) : Option Tok :=
  if t.quoted then
    if t.escaped then
      Tok.put { t with escaped := false, lastC := c } c
    else if c = SQ then
      some { t with quoted := false }
    else if c = BS then
      some { t with escaped := true }
    else
      Tok.put { t with lastC := c } c
  else if isBlank c then
    if t.lastC ≠ 0 then do
      let t ← t.put NUL
      some { t with n := t.n + 1, lastC := 0 }
    else
      some { t with lastC := 0 }
  else if c = SQ then
    some { t with quoted := true, escaped := false, lastC := c }
  else
    Tok.put { t with lastC := c } c

/-- `tokenize`. -/
def tokenize (src : List UInt8) (h : Heap) : Option (Option (Block × Nat) × Heap) :=
  match h.malloc (src.length + 1) with
  | (none, h)   => some (none, h)
  | (some b, h) => do
    let buf ← store b.bytes 0 [NUL]
    let t ← src.foldlM Tok.step ⟨buf, 0, 0, 0, false, false⟩
    if t.lastC ≠ 0 then
      let buf ← store t.buf t.dst [NUL]
      some (some ({ b with bytes := buf }, t.n + 1), h)
    else
      some (some ({ b with bytes := t.buf }, t.n), h)

/-! ### The payload parsers -/

/-- `tokens += strlen(tokens) + 1`. -/
def nextToken (tokens : List UInt8) : Option (List UInt8) := do
  let tok ← loadStr tokens
  some (tokens.drop (tok.length + 1))

/-- The parsers of a payload. -/
abbrev PayloadParser :=
  Payload → List UInt8 → Nat → Heap → Option (Except Errno Unit × Payload × Heap)

/-- `parse_mac` of the string at `src`, which is read to its end. -/
def parseMac (buf src : List UInt8) : Option (Except Errno (List UInt8)) :=
  (loadStr src).map (Wpa.parseMac buf)

/-- A payload that is a MAC. -/
def parseMacOnly : PayloadParser := fun p tokens num h =>
  if num < 1 then
    some (.error .EINVAL, p, h)
  else do
    match ← parseMac p.mac tokens with
    | .error e => some (.error e, p, h)
    | .ok mac  => some (.ok (), { p with mac }, h)

/-- The loop of `parse_p2p_device_found`. -/
def findName : Nat → List UInt8 → Payload → Heap → Option (Except Errno Unit × Payload × Heap)
  | 0, _, p, h          => some (.error .EINVAL, p, h)
  | n + 1, tokens, p, h => do
    if strncmp (← loadStr tokens) (str "name=") 5 ≠ 0 then
      findName n (← nextToken tokens) p h
    else
      match h.strdup (← loadStr (tokens.drop 5)) with
      | (none, h)      => some (.error .ENOMEM, p, h)
      | (some name, h) => some (.ok (), { p with ptr := some name }, h)

/-- `parse_p2p_device_found`. -/
def parseP2pDeviceFound : PayloadParser := fun p tokens num h =>
  if num < 2 then
    some (.error .EINVAL, p, h)
  else do
    match ← parseMac p.mac tokens with
    | .error e => some (.error e, p, h)
    | .ok mac  => findName (num - 1) (← nextToken tokens) { p with mac } h

/-- The loop of `parse_p2p_go_neg_success`. -/
def goNegLoop : Nat → List UInt8 → Bool → Bool → Payload → Option (Except Errno Unit × Payload)
  | 0, _, hasRole, hasPeer, p => some (if hasRole && hasPeer then .ok () else .error .EINVAL, p)
  | n + 1, tokens, hasRole, hasPeer, p => do
    if strncmp (← loadStr tokens) (str "role=") 5 = 0 then
      match roleOf (← loadStr (tokens.drop 5)) with
      | none      => some (.error .EINVAL, p)
      | some role => goNegLoop n (← nextToken tokens) true hasPeer { p with role }
    else if strncmp (← loadStr tokens) (str "peer_dev=") 9 = 0 then
      match ← parseMac p.mac (tokens.drop 9) with
      | .error e => some (.error e, p)
      | .ok mac  => goNegLoop n (← nextToken tokens) hasRole true { p with mac }
    else
      goNegLoop n (← nextToken tokens) hasRole hasPeer p

/-- `parse_p2p_go_neg_success`. -/
def parseP2pGoNegSuccess : PayloadParser := fun p tokens num h =>
  if num < 2 then
    some (.error .EINVAL, p, h)
  else do
    let (r, p) ← goNegLoop num tokens false false p
    some (r, p, h)

/-- The loop of `parse_p2p_group_started`. -/
def findGoDevAddr : Nat → List UInt8 → Payload → Option (Except Errno Unit × Payload)
  | 0, _, p          => some (.error .EINVAL, p)
  | n + 1, tokens, p => do
    if strncmp (← loadStr tokens) (str "go_dev_addr=") 12 ≠ 0 then
      findGoDevAddr n (← nextToken tokens) p
    else
      match ← parseMac p.mac (tokens.drop 12) with
      | .error e => some (.error e, p)
      | .ok mac  => some (.ok (), { p with mac })

/-- `parse_p2p_group_started`. -/
def parseP2pGroupStarted : PayloadParser := fun p tokens num h =>
  if num < 3 then
    some (.error .EINVAL, p, h)
  else do
    match h.strdup (← loadStr tokens) with
    | (none, h)        => some (.error .ENOMEM, p, h)
    | (some ifname, h) =>
      let p := { p with ptr := some ifname }
      let tokens ← nextToken tokens
      match roleOf (← loadStr tokens) with
      | none      => some (.error .EINVAL, p, h)
      | some role =>
        let (r, p) ← findGoDevAddr (num - 2) (← nextToken tokens) { p with role }
        some (r, p, h)

/-- `parse_p2p_prov_disc_show_pin`. -/
def parseP2pProvDiscShowPin : PayloadParser := fun p tokens num h =>
  if num < 2 then
    some (.error .EINVAL, p, h)
  else do
    match ← parseMac p.mac tokens with
    | .error e => some (.error e, p, h)
    | .ok mac  =>
      let p := { p with mac }
      match h.strdup (← loadStr (← nextToken tokens)) with
      | (none, h)     => some (.error .ENOMEM, p, h)
      | (some pin, h) => some (.ok (), { p with ptr := some pin }, h)

/-- The `switch` of `owfd_wpa_event_parse`. -/
def parsePayload : EventType → PayloadParser
  | .apStaConnected      => parseMacOnly
  | .apStaDisconnected   => parseMacOnly
  | .p2pDeviceFound      => parseP2pDeviceFound
  | .p2pGoNegSuccess     => parseP2pGoNegSuccess
  | .p2pGroupStarted     => parseP2pGroupStarted
  | .p2pProvDiscShowPin  => parseP2pProvDiscShowPin
  | .p2pProvDiscEnterPin => parseMacOnly
  | .p2pProvDiscPbcReq   => parseMacOnly
  | .p2pProvDiscPbcResp  => parseMacOnly
  | _                    => fun p _ _ h => some (.ok (), p, h)

end Bounded

/-! ### The tokenizer stays inside its block -/

/-- The variables, with what was written at the start of the block `b`. -/
def Tok.within (t : Tok) (b : List UInt8) : Bounded.Tok :=
  ⟨memcpy b 0 t.out, t.out.length, t.lastC, t.n, t.quoted, t.escaped⟩

section

variable {b : List UInt8} {t : Tok}

theorem Tok.put_within (h : t.out.length < b.length) (c : UInt8) :
    (t.within b).put c = some (Tok.within { t with out := t.out ++ [c] } b) := by
  have hlen : (memcpy b 0 t.out).length = b.length := memcpy_length (by omega)
  have hstore : store (memcpy b 0 t.out) t.out.length [c] = some (memcpy b 0 (t.out ++ [c])) := by
    rw [store_of_le (by rw [hlen, List.length_singleton]; omega), memcpy_memcpy]
  have hdst : (t.out ++ [c]).length = t.out.length + 1 := List.length_append
  unfold Bounded.Tok.put Tok.within
  rw [hdst]
  simp only [hstore, Option.bind_eq_bind, Option.bind_some]

theorem Tok.step_within (h : t.out.length < b.length) (c : UInt8) :
    (t.within b).step c = some ((t.step c).within b) := by
  have hput : ∀ u : Tok, u.out = t.out →
      (u.within b).put c = some (Tok.within { u with out := u.out ++ [c] } b) :=
    fun u hu => Tok.put_within (hu ▸ h) c
  unfold Bounded.Tok.step Tok.step
  simp only [show (t.within b).quoted = t.quoted from rfl,
    show (t.within b).escaped = t.escaped from rfl, show (t.within b).lastC = t.lastC from rfl]
  split_ifs
  · exact hput { t with escaped := false, lastC := c } rfl
  · rfl
  · rfl
  · exact hput { t with lastC := c } rfl
  · rw [Tok.put_within h]
    rfl
  · rfl
  · rfl
  · exact hput { t with lastC := c } rfl

/-- **One byte of the text**, at most one byte of the block. -/
theorem Tok.step_length (t : Tok) (c : UInt8) : (t.step c).out.length ≤ t.out.length + 1 := by
  unfold Tok.step
  split_ifs <;> simp

theorem Tok.run_length (t : Tok) (src : List UInt8) :
    (src.foldl Tok.step t).out.length ≤ t.out.length + src.length := by
  induction src generalizing t with
  | nil => exact le_rfl
  | cons c src ih =>
      have hstep := t.step_length c
      have hrest := ih (t.step c)
      rw [List.foldl_cons, List.length_cons]
      omega

theorem Tok.run_within (src : List UInt8) (h : t.out.length + src.length < b.length) :
    src.foldlM Bounded.Tok.step (t.within b) = some ((src.foldl Tok.step t).within b) := by
  induction src generalizing t with
  | nil => rfl
  | cons c src ih =>
      rw [List.length_cons] at h
      have hlen := t.step_length c
      have hrun := ih (t := t.step c) (by omega)
      rw [List.foldlM_cons, Tok.step_within (by omega), List.foldl_cons]
      exact hrun

end

section

variable {src : List UInt8} {h h' : Heap} {b : Block} {n : Nat}

/-- The block with what the loop writes, and the NUL of the last token behind it. -/
theorem malloc_room (hm : h.malloc (src.length + 1) = (some b, h')) :
    0 + [NUL].length ≤ b.bytes.length ∧
      (memcpy b.bytes 0 [NUL]).length = src.length + 1 ∧
      (memcpy (memcpy b.bytes 0 [NUL]) 0 (src.foldl Tok.step .init).out).length = src.length + 1 ∧
      (src.foldl Tok.step .init).out.length + [NUL].length ≤ src.length + 1 := by
  have hlen := Heap.malloc_bytes hm
  have hone : 0 + [NUL].length ≤ b.bytes.length := by
    rw [hlen, List.length_singleton]
    omega
  have hfirst : (memcpy b.bytes 0 [NUL]).length = src.length + 1 := by rw [memcpy_length hone, hlen]
  have hout : (src.foldl Tok.step .init).out.length ≤ src.length := by
    have hrun := Tok.run_length .init src
    rwa [show Tok.init.out.length = 0 from rfl, Nat.zero_add] at hrun
  refine ⟨hone, hfirst, ?_, Nat.succ_le_succ hout⟩
  rw [memcpy_length (by omega), hfirst]

/-- **`tokenize` writes its block and nothing else.** -/
theorem tokenize_bounded (src : List UInt8) (h : Heap) :
    Bounded.tokenize src h = some (tokenize src h) := by
  unfold Bounded.tokenize tokenize
  rcases hm : h.malloc (src.length + 1) with ⟨_ | b, h₁⟩
  · rfl
  · obtain ⟨hone, hfirst, hloop, hlast⟩ := malloc_room hm
    have hrun := Tok.run_within (t := .init) (b := memcpy b.bytes 0 [NUL]) src
      (by rw [hfirst]; exact Nat.lt_succ_of_le (Nat.le_of_eq (Nat.zero_add _)))
    have hinit : Tok.init.within (memcpy b.bytes 0 [NUL]) =
        ⟨memcpy b.bytes 0 [NUL], 0, 0, 0, false, false⟩ := by
      simp [Tok.within, Tok.init, memcpy]
    rw [hinit] at hrun
    simp only [store_of_le hone, hrun, Option.bind_eq_bind, Option.bind_some, Tok.within]
    split_ifs
    · rw [store_of_le (hloop ▸ hlast)]
      rfl
    · rfl

/-- The block keeps its size. -/
theorem tokenize_bytes (e : tokenize src h = (some (b, n), h')) :
    b.bytes.length = src.length + 1 := by
  unfold tokenize at e
  rcases hm : h.malloc (src.length + 1) with ⟨_ | b₀, h₁⟩ <;> simp only [hm] at e
  · cases e
  · obtain ⟨-, -, hloop, hlast⟩ := malloc_room hm
    split_ifs at e <;> cases e
    · exact (memcpy_length (hloop ▸ hlast)).trans hloop
    · exact hloop

end

/-! ### The payload parsers stay inside the tokens -/

section

variable {tokens tok : List UInt8} {toks : List (List UInt8)}

/-- The strings alone. -/
theorem Begins.load (h : Begins tokens (tok :: toks)) :
    loadStr (strings (tok :: toks)) = some tok := by
  rw [strings_cons]
  exact loadStr_append (h.clean tok List.mem_cons_self) _

theorem Begins.load_drop (h : Begins tokens (tok :: toks)) {k : Nat} (hk : k ≤ tok.length) :
    loadStr ((strings (tok :: toks)).drop k) = some (tok.drop k) := by
  rw [strings_cons, List.drop_append_of_le_length hk]
  exact loadStr_append (fun hm => h.clean tok List.mem_cons_self (List.mem_of_mem_drop hm)) _

theorem Begins.load_next (h : Begins tokens (tok :: toks)) :
    Bounded.nextToken (strings (tok :: toks)) = some (strings toks) := by
  have hdrop : (strings (tok :: toks)).drop (tok.length + 1) = strings toks := by
    rw [strings_cons, ← List.drop_drop, List.drop_left]
    rfl
  rw [Bounded.nextToken, h.load, ← hdrop]
  rfl

variable {p : Payload} {h : Heap}

theorem parseMac_bounded {buf : List UInt8} (hb : Begins tokens (tok :: toks)) :
    Bounded.parseMac buf (strings (tok :: toks)) = some (parseMac buf (cstr tokens)) := by
  rw [Bounded.parseMac, hb.load, hb.cstr]
  rfl

theorem parseMac_drop_bounded {buf : List UInt8} (hb : Begins tokens (tok :: toks)) {k : Nat}
    (hk : k ≤ tok.length) :
    Bounded.parseMac buf ((strings (tok :: toks)).drop k) =
      some (parseMac buf (cstr (tokens.drop k))) := by
  rw [Bounded.parseMac, hb.load_drop hk, hb.cstr_drop hk]
  rfl

theorem parseMacOnly_bounded (hb : Begins tokens toks) :
    Bounded.parseMacOnly p (strings toks) toks.length h =
      some (parseMacOnly p tokens toks.length h) := by
  unfold Bounded.parseMacOnly parseMacOnly
  cases toks with
  | nil => rfl
  | cons tok toks =>
      simp only [parseMac_bounded hb, Option.bind_eq_bind, Option.bind_some]
      split_ifs
      · rfl
      · cases parseMac p.mac (cstr tokens) <;> rfl

theorem findName_bounded (hb : Begins tokens toks) :
    Bounded.findName toks.length (strings toks) p h = some (findName toks.length tokens p h) := by
  induction toks generalizing tokens with
  | nil => rfl
  | cons tok toks ih =>
      simp only [List.length_cons, Bounded.findName, findName, hb.load, hb.load_next, hb.cstr,
        Option.bind_eq_bind, Option.bind_some]
      split_ifs with hkey
      · exact ih hb.next
      · have hlen : 5 ≤ tok.length :=
          ((strncmp_key rfl (by decide)).mp (not_not.mp hkey)).length_le
        rw [hb.load_drop hlen, hb.cstr_drop hlen, Option.bind_some]
        rcases h.strdup (tok.drop 5) with ⟨_ | b, h'⟩ <;> rfl

theorem goNegLoop_bounded {hasRole hasPeer : Bool} (hb : Begins tokens toks) :
    Bounded.goNegLoop toks.length (strings toks) hasRole hasPeer p =
      some (goNegLoop toks.length tokens hasRole hasPeer p) := by
  induction toks generalizing tokens hasRole hasPeer p with
  | nil => rfl
  | cons tok toks ih =>
      simp only [List.length_cons, Bounded.goNegLoop, goNegLoop, hb.load, hb.load_next, hb.cstr,
        Option.bind_eq_bind, Option.bind_some]
      split_ifs with hrole hpeer
      · have hlen : 5 ≤ tok.length := ((strncmp_key rfl (by decide)).mp hrole).length_le
        rw [hb.load_drop hlen, hb.cstr_drop hlen, Option.bind_some]
        cases roleOf (tok.drop 5) with
        | none => rfl
        | some role => exact ih hb.next
      · have hlen : 9 ≤ tok.length := ((strncmp_key rfl (by decide)).mp hpeer).length_le
        rw [parseMac_drop_bounded hb hlen, Option.bind_some]
        cases parseMac p.mac (cstr (tokens.drop 9)) with
        | error e => rfl
        | ok mac => exact ih hb.next
      · exact ih hb.next

theorem findGoDevAddr_bounded (hb : Begins tokens toks) :
    Bounded.findGoDevAddr toks.length (strings toks) p =
      some (findGoDevAddr toks.length tokens p) := by
  induction toks generalizing tokens with
  | nil => rfl
  | cons tok toks ih =>
      simp only [List.length_cons, Bounded.findGoDevAddr, findGoDevAddr, hb.load, hb.load_next,
        hb.cstr, Option.bind_eq_bind, Option.bind_some]
      split_ifs with hkey
      · exact ih hb.next
      · have hlen : 12 ≤ tok.length :=
          ((strncmp_key rfl (by decide)).mp (not_not.mp hkey)).length_le
        rw [parseMac_drop_bounded hb hlen, Option.bind_some]
        cases parseMac p.mac (cstr (tokens.drop 12)) <;> rfl

theorem parseP2pDeviceFound_bounded (hb : Begins tokens toks) :
    Bounded.parseP2pDeviceFound p (strings toks) toks.length h =
      some (parseP2pDeviceFound p tokens toks.length h) := by
  unfold Bounded.parseP2pDeviceFound parseP2pDeviceFound
  cases toks with
  | nil => rfl
  | cons tok toks =>
      simp only [parseMac_bounded hb, hb.load_next, Option.bind_eq_bind, Option.bind_some]
      split_ifs
      · rfl
      · cases parseMac p.mac (cstr tokens) with
        | error e => rfl
        | ok mac => exact findName_bounded hb.next

theorem parseP2pGoNegSuccess_bounded (hb : Begins tokens toks) :
    Bounded.parseP2pGoNegSuccess p (strings toks) toks.length h =
      some (parseP2pGoNegSuccess p tokens toks.length h) := by
  unfold Bounded.parseP2pGoNegSuccess parseP2pGoNegSuccess
  rw [goNegLoop_bounded hb]
  split_ifs <;> rfl

theorem parseP2pGroupStarted_bounded (hb : Begins tokens toks) :
    Bounded.parseP2pGroupStarted p (strings toks) toks.length h =
      some (parseP2pGroupStarted p tokens toks.length h) := by
  unfold Bounded.parseP2pGroupStarted parseP2pGroupStarted
  match toks, hb with
  | [], _ | [_], _ => rfl
  | ifname :: role :: toks, hb =>
      simp only [hb.load, hb.load_next, hb.next.load, hb.next.load_next, hb.cstr, hb.next.cstr,
        Option.bind_eq_bind, Option.bind_some]
      split_ifs
      · rfl
      · rcases h.strdup ifname with ⟨_ | b, h'⟩
        · rfl
        · dsimp only
          cases roleOf role with
          | none => rfl
          | some r =>
              have hloop :=
                findGoDevAddr_bounded (p := { p with ptr := some b, role := r }) hb.next.next
              dsimp only
              rw [show (ifname :: role :: toks).length - 2 = toks.length from rfl, hloop]
              rfl

theorem parseP2pProvDiscShowPin_bounded (hb : Begins tokens toks) :
    Bounded.parseP2pProvDiscShowPin p (strings toks) toks.length h =
      some (parseP2pProvDiscShowPin p tokens toks.length h) := by
  unfold Bounded.parseP2pProvDiscShowPin parseP2pProvDiscShowPin
  match toks, hb with
  | [], _ | [_], _ => rfl
  | mac :: pin :: toks, hb =>
      simp only [parseMac_bounded hb, hb.load_next, hb.next.load, hb.next.cstr, Option.bind_eq_bind,
        Option.bind_some]
      split_ifs
      · rfl
      · cases parseMac p.mac (cstr tokens) with
        | error e => rfl
        | ok m =>
            dsimp only
            rcases h.strdup pin with ⟨_ | b, h'⟩ <;> rfl

/-- **A payload parser reads nothing behind the tokens that it is told of.** -/
theorem parsePayload_bounded (type : EventType) (hb : Begins tokens toks) :
    Bounded.parsePayload type p (strings toks) toks.length h =
      some (parsePayload type p tokens toks.length h) := by
  cases type
  case p2pDeviceFound => exact parseP2pDeviceFound_bounded hb
  case p2pGoNegSuccess => exact parseP2pGoNegSuccess_bounded hb
  case p2pGroupStarted => exact parseP2pGroupStarted_bounded hb
  case p2pProvDiscShowPin => exact parseP2pProvDiscShowPin_bounded hb
  case apStaConnected | apStaDisconnected | p2pProvDiscEnterPin | p2pProvDiscPbcReq |
      p2pProvDiscPbcResp => exact parseMacOnly_bounded hb
  all_goals rfl

end

/-! ### What the parsers get -/

/-- **`tokenize` and its reference.**  No byte is written outside the block of `strlen(src) + 1`
bytes, which begins with the tokens of the text, each with its NUL, and they are counted.  Given the
block and the count, a payload parser reads nothing but these tokens: with no other byte in memory
it does the same. -/
theorem tokenize_reference (src : CStr) (h : Heap) :
    Bounded.tokenize src h = some (tokenize src h) ∧
      ∀ b n h', tokenize src h = (some (b, n), h') →
        b.bytes.length = src.1.length + 1 ∧ n = (tokensIn src).length ∧
          Begins b.bytes (tokensIn src) ∧
          ∀ type p h₁, Bounded.parsePayload type p (strings (tokensIn src)) n h₁ =
            some (parsePayload type p b.bytes n h₁) := by
  refine ⟨tokenize_bounded src h, ?_⟩
  intro b n h' e
  obtain ⟨hn, hb⟩ := tokenize_begins src.2 e
  rw [splitTokens_eq] at hn hb
  subst hn
  exact ⟨tokenize_bytes e, rfl, hb, fun type p h₁ => parsePayload_bounded type hb⟩

/-- A quoted blank, after a token. -/
theorem tokenize_reference_quoted :
    ∃ b h', tokenize (str "x 'a b'") (.fresh []) = (some (b, 2), h') ∧
      Begins b.bytes [str "x", str "a b"] := by
  have href := (tokenize_reference ⟨str "x 'a b'", by decide⟩ (.fresh [])).2
  have htoks : tokensIn (str "x 'a b'") = [str "x", str "a b"] := by decide
  obtain ⟨b, n, h', e, -⟩ := tokenize_willing Heap.willing_fresh (str "x 'a b'")
  obtain ⟨-, hn, hb, -⟩ := href b n h' e
  rw [htoks] at hn hb
  obtain rfl : n = 2 := hn
  exact ⟨b, h', e, hb⟩

end OpenWfd.Wpa
